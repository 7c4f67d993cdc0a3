import Mathlib
import NemoRL.Foundations.Streaks
import NemoRL.Foundations.Transition
import NemoRL.Generation.FleetHealth

namespace NemoRL.Generation.GenerationRouter

open Foundations.Streaks Foundations.Transition FleetHealth

/-- What the router keeps. A restart builds all of it again. -/
structure Router where
  allBackends : List String
  serving : List String
  inflight : String → ℕ
  backendFailures : String → ℕ

def Router.init (backendUrls : List String) : Router :=
  ⟨backendUrls, backendUrls, fun _ ↦ 0, fun _ ↦ 0⟩

inductive Outcome
  | answered
  | backendError
  -- Neither a timeout nor a client error: it is raised to the server.
  | raised
  deriving DecidableEq

namespace Router

def setServingBackends (r : Router) (urls : List String) : Router :=
  { r with serving := urls.filter (· ∈ r.allBackends) }

def drainBackendFailures (r : Router) : Router × List (String × ℕ) :=
  ({ r with backendFailures := fun url ↦ if url ∈ r.allBackends then 0 else r.backendFailures url },
    (r.allBackends.dedup.filter fun url ↦ r.backendFailures url ≠ 0).map fun url ↦
      (url, r.backendFailures url))

def pickBackend (r : Router) : Option String :=
  r.serving.foldl (fun best url ↦ match best with
    | none => some url
    | some b =>
      if r.inflight url < r.inflight b ∨ r.inflight url = r.inflight b ∧ url < b then some url
      else some b) none

def onBackendError (healthManaged : Bool) (r : Router) (backend : String) : Router :=
  let r := { r with
    backendFailures :=
      Function.update r.backendFailures backend (r.backendFailures backend + 1) }
  if healthManaged then { r with serving := r.serving.filter (· ≠ backend) } else r

def beginRequest (r : Router) : Router :=
  match r.pickBackend with
  | some backend =>
    { r with inflight := Function.update r.inflight backend (r.inflight backend + 1) }
  | none => r

def endRequest (healthManaged : Bool) (r : Router) (backend : String) (outcome : Outcome) : Router :=
  let r := match outcome with
    | .backendError => r.onBackendError healthManaged backend
    | _ => r
  { r with inflight := Function.update r.inflight backend (r.inflight backend - 1) }

end Router

/-- What the log keeps: the requests that came back and the refits. -/
inductive Entry (n : ℕ)
  | request (backend : String) (ok : Bool)
  | refit (shard : Fin n)
  deriving DecidableEq

/-- The controller's ledger and the router, with the counts that the controller has
asked for and not folded in yet. -/
structure System (n : ℕ) where
  fleet : GenerationFleetHealth n
  router : Router
  drained : Option (List (String × ℕ))
  log : List (Entry n)

inductive Event (n : ℕ)
  | request
  | finish (backend : String) (outcome : Outcome)
  | probe (shard : Fin n) (ok : Bool)
  | drain
  | report
  -- The call to the router raised; the tick that follows tries again.
  | lose
  | push
  | restart
  | refit (shard : Fin n) (weightVersion : ℤ)

variable {n : ℕ}

def reportFailures (policy : FleetHealthPolicy) (f : GenerationFleetHealth n) (url : String)
    (count : ℕ) : GenerationFleetHealth n :=
  match f.shardForBaseUrl url with
  | some i => (fun f ↦ f.reportFailure policy i)^[count] f
  | none => f

def drainRouterFailures (policy : FleetHealthPolicy) (f : GenerationFleetHealth n)
    (counts : List (String × ℕ)) : GenerationFleetHealth n :=
  counts.foldl (fun f x ↦ reportFailures policy f x.1 x.2) f

def step (policy : FleetHealthPolicy) (healthManaged : Bool) (s : System n) :
    Event n → Option (System n)
  | .request => some { s with router := s.router.beginRequest }
  | .finish backend outcome =>
    if s.router.inflight backend = 0 then none
    else
      let s := { s with router := s.router.endRequest healthManaged backend outcome }
      match outcome with
      | .answered => some { s with log := s.log ++ [.request backend true] }
      | .backendError => some { s with log := s.log ++ [.request backend false] }
      | .raised => some s
  -- Only the serving shards are probed.
  | .probe i ok =>
    if i ∈ s.fleet.servingShards then some { s with fleet := s.fleet.recordProbe policy i ok }
    else none
  | .drain =>
    if s.drained.isSome then none
    else some { s with
      router := s.router.drainBackendFailures.1
      drained := some s.router.drainBackendFailures.2 }
  | .report => s.drained.map fun counts ↦
    { s with fleet := drainRouterFailures policy s.fleet counts, drained := none }
  | .lose => some { s with drained := none }
  | .push => some { s with router := s.router.setServingBackends s.fleet.servingBaseUrls }
  | .restart => some { s with router := .init s.router.allBackends }
  | .refit i weightVersion => some { s with
    fleet := s.fleet.reportRefit i weightVersion
    log := s.log ++ [.refit i] }

def init (backendUrls : List String) (baseUrls : Fin n → Option String) : System n :=
  ⟨.init baseUrls, .init backendUrls, none, []⟩

def Initial (s : System n) : Prop := ∃ backendUrls baseUrls, s = init backendUrls baseUrls

def Entry.failed (url : Option String) : Entry n → Bool
  | .request backend ok => url = some backend ∧ ok = false
  | .refit _ => false

def Entry.clears (url : Option String) (i : Fin n) : Entry n → Bool
  | .request backend ok => url = some backend ∧ ok = true
  | .refit j => j = i

/-- The requests that failed on the backend of a shard since the last one that it
answered, or since the shard's last refit. -/
def failedRequests (s : System n) (i : Fin n) : ℕ :=
  streak (Entry.failed (s.fleet.shards i).baseUrl) (Entry.clears (s.fleet.shards i).baseUrl i) s.log

def undrained (s : System n) (url : String) : ℕ :=
  s.router.backendFailures url +
    (((s.drained.getD []).filter fun x ↦ x.1 = url).map Prod.snd).sum

end NemoRL.Generation.GenerationRouter
