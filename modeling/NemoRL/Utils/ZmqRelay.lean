import Mathlib
import NemoRL.Foundations.HeapTree
import NemoRL.Foundations.KeyedStore
import NemoRL.Foundations.Transition

namespace NemoRL.Utils.ZmqRelay

open Foundations Foundations.Transition

variable {β : Type}

def protocol : String := "nemo-rl-sparse-zmq-v1"

/-- What a DATA message says of the payload it carries, and the payload. -/
structure Payload (β : Type) where
  transferId : String
  producerId : ℤ
  payloadId : ℤ
  checksum : String
  verificationCandidates : ℤ
  body : β
  deriving DecidableEq

def Payload.key (p : Payload β) : String × ℤ × ℤ := (p.transferId, p.producerId, p.payloadId)

/-- A DATA message. Its identity is the number of the socket that sent it. -/
structure Data (β : Type) where
  identity : ℕ
  address : String
  protocol : String
  apiKey : Option String
  relayRoot : Option String
  payload : Payload β
  deriving DecidableEq

inductive Reply
  | ack (transferId : String) (producerId payloadId : ℤ)
  | nack (error : String)
  deriving DecidableEq

inductive Phase
  | queued
  | running
  | done (ok : Bool)
  deriving DecidableEq

/-- Work submitted for a staged payload: the local apply, or the forward to a
child. -/
structure Work (β : Type) where
  payload : Payload β
  relayRoot : String
  child : Option String
  deriving DecidableEq

structure Job (β : Type) where
  work : Work β
  phase : Phase
  deriving DecidableEq

structure RelayTransfer where
  checksums : List ((ℤ × ℤ) × String)
  futures : List ℕ
  deriving DecidableEq

/-- The future that all flushes of one transfer share. -/
inductive Completion
  | pending
  | result (payloads : ℕ)
  | exception
  deriving DecidableEq

inductive FlushPhase
  | waiting
  | collecting (staged : RelayTransfer)
  | awaiting
  | returned (payloads : ℕ)
  | raised
  deriving DecidableEq

structure FlushCall where
  transferId : String
  expectedPayloads : ℤ
  phase : FlushPhase
  deriving DecidableEq

/-- One relay with its flushes under way. A future is the position of its job,
and `handed` logs the calls of the local apply function. -/
structure Relay (β : Type) where
  transfers : KeyedStore String RelayTransfer
  flushResults : KeyedStore String Completion
  jobs : List (Job β)
  flushes : List FlushCall
  handed : List (Payload β)

/-- A call of `send_payload`, and the forward job it is made for, if any. -/
structure Send (β : Type) where
  payload : Payload β
  relayRoot : Option String
  attempt : ℕ
  awaiting : Bool
  job : Option (String × ℕ)

structure Client (β : Type) where
  address : String
  apiKey : Option String
  call : Option (Send β)

/-- Relays, sockets, and all messages sent so far, any of which may arrive late,
repeatedly or never. `produced` logs what producers send, with the relay they
send it to. -/
structure Cluster (β : Type) where
  relays : String → Relay β
  clients : List (Client β)
  data : List (Data β)
  replies : List (ℕ × Reply)
  produced : List (String × Payload β)

/-- What all relays are configured with. `addresses` are those left of the
relay addresses once repeats are dropped. -/
structure Config where
  addresses : List String
  nodup : addresses.Nodup
  retries : ℕ
  token : Option String

def fromkeys : List String → List String
  | [] => []
  | a :: l => a :: (fromkeys l).filter (· ≠ a)

theorem nodup_fromkeys (l : List String) : (fromkeys l).Nodup := by
  induction l with
  | nil => exact List.nodup_nil
  | cons a l ih =>
    refine List.nodup_cons.mpr ⟨?_, ih.filter _⟩
    simp

def Config.configureTree (relayAddresses : List String) (retries : ℕ) (token : Option String) :
    Config :=
  ⟨fromkeys relayAddresses, nodup_fromkeys relayAddresses, retries, token⟩

def children (addresses : List String) (relayRoot own : String) : List String :=
  (HeapTree.childPlaces addresses.length (addresses.idxOf relayRoot)
    (addresses.idxOf own)).filterMap (addresses[·]?)

def parseDataMessage (cfg : Config) (d : Data β) : Except String Unit :=
  if d.protocol ≠ protocol then
    .error "Unsupported ZeroMQ sparse refit protocol."
  else if cfg.token.isSome ∧ d.apiKey ≠ cfg.token then
    .error "ZeroMQ sparse refit producer authentication failed."
  else if d.payload.transferId = "" ∨ d.payload.producerId < 0 ∨ d.payload.payloadId < 0 ∨
      d.payload.checksum = "" ∨ d.payload.verificationCandidates < 0 then
    .error "Invalid ZeroMQ sparse refit payload identity."
  else if ∃ root ∈ d.relayRoot, root ∉ cfg.addresses then
    .error "Invalid ZeroMQ relay root."
  else .ok ()

def staged (r : Relay β) (transferId : String) : RelayTransfer :=
  (r.transfers transferId).getD ⟨[], []⟩

def works (cfg : Config) (own relayRoot : String) (p : Payload β) : List (Work β) :=
  ⟨p, relayRoot, none⟩ :: (children cfg.addresses relayRoot own).map fun c ↦ ⟨p, relayRoot, some c⟩

def stage (cfg : Config) (own relayRoot : String) (p : Payload β) (r : Relay β) : Relay β :=
  let new := works cfg own relayRoot p
  let old := staged r p.transferId
  { r with
    jobs := r.jobs ++ new.map fun w ↦ ⟨w, .queued⟩
    transfers := r.transfers.write p.transferId
      ⟨old.checksums ++ [((p.producerId, p.payloadId), p.checksum)],
        old.futures ++ List.range' r.jobs.length new.length⟩ }

def receive (cfg : Config) (own : String) (r : Relay β) (d : Data β) : Relay β × Reply :=
  let p := d.payload
  match parseDataMessage cfg d with
  | .error e => (r, .nack e)
  | .ok () =>
    if r.flushResults.Holds p.transferId then
      (r, .nack "ZeroMQ sparse refit transfer is already flushed.")
    else
      match (staged r p.transferId).checksums.find? (·.1 = (p.producerId, p.payloadId)) with
      | some (_, previous) =>
        if previous ≠ p.checksum then
          (r, .nack "Conflicting ZeroMQ sparse refit payload checksum.")
        else (r, .ack p.transferId p.producerId p.payloadId)
      | none =>
        (stage cfg own (d.relayRoot.getD own) p r, .ack p.transferId p.producerId p.payloadId)

section Flush

def ready (r : Relay β) (f : FlushCall) : Prop :=
  f.expectedPayloads ≤ (staged r f.transferId).checksums.length

instance (r : Relay β) (f : FlushCall) : Decidable (ready r f) :=
  inferInstanceAs (Decidable (_ ≤ _))

/-- A flush that finds the transfer open seals it, and later flushes wait for
its result. -/
def sealTransfer (r : Relay β) (transferId : String) : Relay β × FlushPhase :=
  if r.flushResults.Holds transferId then (r, .awaiting)
  else
    ({ r with
      flushResults := r.flushResults.write transferId .pending
      transfers := r.transfers.clear [transferId] }, .collecting (staged r transferId))

def setFlush (r : Relay β) (i : ℕ) (phase : FlushPhase) : Relay β :=
  { r with flushes := r.flushes.modify i fun f ↦ { f with phase := phase } }

def isDone (r : Relay β) (j : ℕ) : Bool :=
  match r.jobs[j]?.map Job.phase with
  | some (.done _) => true
  | _ => false

def succeeded (r : Relay β) (j : ℕ) : Bool := r.jobs[j]?.map Job.phase = some (.done true)

def finishFlush (r : Relay β) (i : ℕ) (transferId : String) (staged : RelayTransfer) : Relay β :=
  if staged.futures.all (succeeded r) then
    let n := staged.checksums.length
    setFlush { r with flushResults := r.flushResults.write transferId (.result n) } i (.returned n)
  else
    setFlush { r with flushResults := r.flushResults.write transferId .exception } i .raised

inductive FlushEvent
  | call (transferId : String) (expectedPayloads : ℤ)
  | wake (i : ℕ)
  | timeout (i : ℕ)
  | finish (i : ℕ)

def flushStep (r : Relay β) : FlushEvent → Option (Relay β)
  | .call transferId expectedPayloads =>
    let f : FlushCall := ⟨transferId, expectedPayloads, .waiting⟩
    let t := if r.flushResults.Holds transferId ∨ ready r f then sealTransfer r transferId
      else (r, .waiting)
    some { t.1 with flushes := t.1.flushes ++ [{ f with phase := t.2 }] }
  | .wake i => do
    let f ← r.flushes[i]?
    if f.phase = .waiting ∧ ready r f then
      let t := sealTransfer r f.transferId
      some (setFlush t.1 i t.2)
    else none
  | .timeout i => do
    let f ← r.flushes[i]?
    if f.phase = .waiting ∧ ¬ ready r f then some (setFlush r i .raised) else none
  | .finish i => do
    let f ← r.flushes[i]?
    match f.phase with
    | .collecting staged =>
      if staged.futures.all (isDone r) then some (finishFlush r i f.transferId staged) else none
    | .awaiting =>
      match r.flushResults f.transferId with
      | some (.result n) => some (setFlush r i (.returned n))
      | some .exception => some (setFlush r i .raised)
      | _ => none
    | _ => none

end Flush

section Sockets

def setPhase (r : Relay β) (j : ℕ) (phase : Phase) : Relay β :=
  { r with jobs := r.jobs.modify j fun job ↦ { job with phase := phase } }

def setRelay (s : Cluster β) (own : String) (r : Relay β) : Cluster β :=
  { s with relays := Function.update s.relays own r }

def sendPayload (s : Cluster β) (c : ℕ) (address : String) (apiKey : Option String)
    (call : Send β) : Option (Cluster β) :=
  match s.clients[c]? with
  | some client =>
    if client.address = address ∧ client.apiKey = apiKey ∧ client.call.isNone then
      some { s with clients := s.clients.set c ⟨address, apiKey, some call⟩ }
    else none
  | none =>
    if c = s.clients.length then
      some { s with clients := s.clients ++ [⟨address, apiKey, some call⟩] }
    else none

def finishSend (s : Cluster β) (c : ℕ) (client : Client β) (call : Send β) (ok : Bool) :
    Cluster β :=
  let s := { s with clients := s.clients.set c { client with call := none } }
  match call.job with
  | some (own, j) => setRelay s own (setPhase (s.relays own) j (.done ok))
  | none => s

def retry (cfg : Config) (s : Cluster β) (c : ℕ) (client : Client β) (call : Send β) :
    Cluster β :=
  if call.attempt < cfg.retries then
    let call := { call with attempt := call.attempt + 1, awaiting := false }
    { s with clients := s.clients.set c { client with call := some call } }
  else finishSend s c client call false

inductive ClientEvent
  | send
  | again
  | recv (k : ℕ)
  | timeout

def clientStep (cfg : Config) (s : Cluster β) (c : ℕ) (client : Client β) (call : Send β) :
    ClientEvent → Option (Cluster β)
  | .send =>
    if call.awaiting then none
    else some { s with
      clients := s.clients.set c { client with call := some { call with awaiting := true } }
      data := s.data ++
        [⟨c, client.address, protocol, client.apiKey, call.relayRoot, call.payload⟩] }
  | .again => if call.awaiting then none else some (retry cfg s c client call)
  | .recv k =>
    match s.replies[k]? with
    | some (identity, reply) =>
      if call.awaiting ∧ identity = c then
        match reply with
        | .nack _ => some (finishSend s c client call false)
        | .ack transferId producerId payloadId =>
          if (transferId, producerId, payloadId) = call.payload.key then
            some (finishSend s c client call true)
          else some s
      else none
    | none => none
  | .timeout => if call.awaiting then some (retry cfg s c client call) else none

end Sockets

inductive Event (β : Type)
  | produce (c : ℕ) (address : String) (apiKey : Option String) (p : Payload β)
  | client (c : ℕ) (e : ClientEvent)
  | deliver (k : ℕ)
  | apply (own : String) (j : ℕ)
  | applied (own : String) (j : ℕ) (ok : Bool)
  | forward (own : String) (j c : ℕ)
  | flush (own : String) (e : FlushEvent)

def step (cfg : Config) (s : Cluster β) : Event β → Option (Cluster β)
  | .produce c address apiKey p =>
    if address ∈ cfg.addresses then
      sendPayload { s with produced := s.produced ++ [(address, p)] } c address apiKey
        ⟨p, none, 0, false, none⟩
    else none
  | .client c e => do
    let client ← s.clients[c]?
    let call ← client.call
    clientStep cfg s c client call e
  | .deliver k => do
    let d ← s.data[k]?
    if d.address ∈ cfg.addresses then
      let r := receive cfg d.address (s.relays d.address) d
      some { setRelay s d.address r.1 with replies := s.replies ++ [(d.identity, r.2)] }
    else none
  | .apply own j => do
    let job ← (s.relays own).jobs[j]?
    if job.work.child = none ∧ job.phase = .queued then
      let r := setPhase (s.relays own) j .running
      some (setRelay s own { r with handed := r.handed ++ [job.work.payload] })
    else none
  | .applied own j ok => do
    let job ← (s.relays own).jobs[j]?
    if job.work.child = none ∧ job.phase = .running then
      some (setRelay s own (setPhase (s.relays own) j (.done ok)))
    else none
  | .forward own j c => do
    let job ← (s.relays own).jobs[j]?
    let child ← job.work.child
    if job.phase = .queued then
      sendPayload (setRelay s own (setPhase (s.relays own) j .running)) c child cfg.token
        ⟨job.work.payload, some job.work.relayRoot, 0, false, some (own, j)⟩
    else none
  | .flush own e => do
    let r ← flushStep (s.relays own) e
    some (setRelay s own r)

def init : Cluster β := ⟨fun _ ↦ ⟨.empty, .empty, [], [], []⟩, [], [], [], []⟩

def Initial (s : Cluster β) : Prop := s = init

end NemoRL.Utils.ZmqRelay
