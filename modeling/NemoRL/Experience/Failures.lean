import Mathlib

namespace NemoRL.Experience

/-- The exception classes the retry code tells apart, and all others by name. -/
inductive ExcClass
  | baseException | exception | cancelledError | baseExceptionGroup | exceptionGroup
  | valueError | indexError | assertionError | runtimeError
  | postWriteEnrichmentError
  | rolloutFailure | rolloutInfraFailure | rolloutDataFailure | rolloutRedispatchExhausted
  | timeoutError | connectionError
  | rayActorError | actorUnavailableError | actorUnschedulableError | taskUnschedulableError
  | workerCrashedError | nodeDiedError | localRayletDiedError | ownerDiedError | rpcError
  | getTimeoutError | objectFetchTimedOutError | objectLostError | outOfMemoryError
  | objectStoreFullError | raySystemError
  | clientConnectionError | clientPayloadError | clientResponseError
  | other (name : String)
  deriving DecidableEq

/-- An exception object: the classes of its type's `__mro__`, an integer
`status` attribute, its `__cause__`, and the members of a group. -/
inductive Exc
  | mk (mro : List ExcClass) (status : Option ℤ) (cause : Option Exc) (exceptions : List Exc)

namespace Exc

def mro : Exc → List ExcClass
  | mk mro _ _ _ => mro

def status : Exc → Option ℤ
  | mk _ status _ _ => status

def cause : Exc → Option Exc
  | mk _ _ cause _ => cause

def exceptions : Exc → List Exc
  | mk _ _ _ exceptions => exceptions

def isinstance (e : Exc) (c : ExcClass) : Bool := decide (c ∈ e.mro)

def typeName (e : Exc) : Option ExcClass := e.mro.head?

def isException (e : Exc) : Bool := e.isinstance .exception

def isCancelled (e : Exc) : Bool := e.isinstance .cancelledError

/-- An exception raised directly with a class of the code. -/
def ofClasses (classes : List ExcClass) (cause : Option Exc) : Exc :=
  mk (classes ++ [.exception, .baseException]) none cause []

def cancelled : Exc := mk [.cancelledError, .baseException] none none []

def valueError : Exc := ofClasses [.valueError] none

def assertionError : Exc := ofClasses [.assertionError] none

def runtimeError : Exc := ofClasses [.runtimeError] none

def postWriteEnrichment (error : Exc) : Exc :=
  ofClasses [.postWriteEnrichmentError, .runtimeError] (some error)

def dataFailure (error : Exc) : Exc :=
  ofClasses [.rolloutDataFailure, .rolloutFailure] (some error)

/-- `RolloutRedispatchExhausted(...) from error`. -/
def redispatchExhausted (error : Exc) : Exc :=
  ofClasses [.rolloutRedispatchExhausted, .runtimeError] (some error)

/-- `BaseExceptionGroup(msg, excs)`, an `ExceptionGroup` when every member is
an `Exception`. -/
def group (excs : List Exc) : Exc :=
  if excs.all isException then
    mk [.exceptionGroup, .baseExceptionGroup, .exception, .baseException] none none excs
  else mk [.baseExceptionGroup, .baseException] none none excs

end Exc

inductive FailureClass
  | infra | data
  deriving DecidableEq, Repr

def maxCauseDepth : ℕ := 8

def retriableHttpStatuses : List ℤ := [408, 429]

def infraTypes : List ExcClass :=
  [.rolloutInfraFailure, .timeoutError, .connectionError, .rayActorError,
    .actorUnavailableError, .actorUnschedulableError, .taskUnschedulableError,
    .workerCrashedError, .nodeDiedError, .localRayletDiedError, .ownerDiedError, .rpcError,
    .getTimeoutError, .objectFetchTimedOutError, .objectLostError, .outOfMemoryError,
    .objectStoreFullError, .raySystemError, .clientConnectionError, .clientPayloadError]

def infraTypeNames : List ExcClass :=
  [.clientConnectionError, .other "ClientConnectorError", .other "ClientOSError",
    .clientPayloadError, .other "ServerConnectionError", .other "ServerDisconnectedError",
    .other "ServerTimeoutError"]

def httpStatusIsInfra (status : ℤ) : Bool :=
  decide (status ≥ 500 ∨ status ∈ retriableHttpStatuses)

def httpStatus (exc : Exc) : Option ℤ :=
  if exc.isinstance .clientResponseError then exc.status else none

def isInfra (exc : Exc) : Bool :=
  if exc.isinstance .rolloutDataFailure then false
  else match httpStatus exc with
    | some status => httpStatusIsInfra status
    | none => infraTypes.any exc.isinstance || exc.mro.any fun c ↦ decide (c ∈ infraTypeNames)

def classifyChain : ℕ → Option Exc → FailureClass
  | 0, _ => .data
  | _ + 1, none => .data
  | n + 1, some e => if isInfra e then .infra else classifyChain n e.cause

def classifyRolloutFailure (exc : Exc) : FailureClass :=
  if exc.isinstance .rolloutDataFailure then .data else classifyChain maxCauseDepth (some exc)

mutual

/-- Whether an error, a rollback group included, is post-write. -/
def containsPostWriteEnrichmentError : Exc → Bool
  | .mk mro _ _ exceptions =>
    if decide (.postWriteEnrichmentError ∈ mro) then true
    else if decide (.baseExceptionGroup ∈ mro) then anyPostWriteEnrichmentError exceptions
    else false

def anyPostWriteEnrichmentError : List Exc → Bool
  | [] => false
  | e :: es => containsPostWriteEnrichmentError e || anyPostWriteEnrichmentError es

end

theorem anyPostWriteEnrichmentError_eq (es : List Exc) :
    anyPostWriteEnrichmentError es = es.any containsPostWriteEnrichmentError := by
  induction es with
  | nil => simp [anyPostWriteEnrichmentError]
  | cons e es ih => simp [anyPostWriteEnrichmentError, ih]

@[simp] theorem containsPostWriteEnrichmentError_postWriteEnrichment (e : Exc) :
    containsPostWriteEnrichmentError (.postWriteEnrichment e) = true := by
  simp [Exc.postWriteEnrichment, Exc.ofClasses, containsPostWriteEnrichmentError]

/-- A rollback failure does not hide that the commit failed after its write. -/
theorem containsPostWriteEnrichmentError_group (es : List Exc)
    (h : ∃ e ∈ es, containsPostWriteEnrichmentError e) :
    containsPostWriteEnrichmentError (.group es) = true := by
  have hany : es.any containsPostWriteEnrichmentError = true := List.any_eq_true.mpr h
  unfold Exc.group
  split_ifs <;>
    simp [containsPostWriteEnrichmentError, anyPostWriteEnrichmentError_eq, hany]

@[simp] theorem isException_cancelled : Exc.cancelled.isException = false := by decide

@[simp] theorem isException_ofClasses (cs : List ExcClass) (c : Option Exc) :
    (Exc.ofClasses cs c).isException = true := by
  simp [Exc.isException, Exc.isinstance, Exc.ofClasses, Exc.mro]

@[simp] theorem isCancelled_ofClasses (cs : List ExcClass) (c : Option Exc) :
    (Exc.ofClasses cs c).isCancelled = decide (.cancelledError ∈ cs) := by
  simp [Exc.isCancelled, Exc.isinstance, Exc.ofClasses, Exc.mro]

@[simp] theorem isCancelled_group (es : List Exc) : (Exc.group es).isCancelled = false := by
  unfold Exc.group
  split_ifs <;> rfl

/-- An exception is infrastructure exactly when some link of its cause chain,
within the depth followed, is. -/
theorem classifyChain_infra_iff (n : ℕ) (e : Option Exc) :
    classifyChain n e = .infra ↔
      ∃ k < n, ∃ x, (fun y : Option Exc ↦ y.bind Exc.cause)^[k] e = some x ∧ isInfra x := by
  induction n generalizing e with
  | zero => simp [classifyChain]
  | succ n ih =>
    cases e with
    | none =>
      have hnone : ∀ k, (fun y : Option Exc ↦ y.bind Exc.cause)^[k] none = none := by
        intro k
        induction k with
        | zero => rfl
        | succ k ih => rw [Function.iterate_succ_apply]; exact ih
      simp [classifyChain, hnone]
    | some e =>
      simp only [classifyChain]
      split_ifs with he
      · simp only [true_iff]
        exact ⟨0, by omega, e, rfl, he⟩
      · rw [ih]
        constructor
        · rintro ⟨k, hk, x, hx, hi⟩
          exact ⟨k + 1, by omega, x, hx, hi⟩
        · rintro ⟨k, hk, x, hx, hi⟩
          cases k with
          | zero =>
            obtain rfl : e = x := by simpa using hx
            exact absurd hi he
          | succ k => exact ⟨k, by omega, x, hx, hi⟩

end NemoRL.Experience
