import Mathlib

namespace NemoRL.Generation.FleetHealth

inductive ShardState
  | healthy
  | suspect
  | dead
  | restarting
  | stale
  | retired
  deriving DecidableEq, Repr

structure ShardHealth where
  baseUrl : Option String
  state : ShardState
  consecutiveProbeFailures : ℕ
  consecutiveProbeSuccesses : ℕ
  consecutiveReportedFailures : ℕ
  restartAttempts : ℕ
  weightVersion : ℤ
  deriving DecidableEq

def ShardHealth.isServing (shard : ShardHealth) : Bool :=
  shard.state = .healthy ∨ shard.state = .suspect

/-- The thresholds that `__post_init__` lets pass. -/
structure FleetHealthPolicy where
  unhealthyThreshold : ℕ
  healthyThreshold : ℕ
  maxRestartAttemptsPerShard : ℤ
  minHealthyShards : ℕ
  unhealthy_pos : 1 ≤ unhealthyThreshold
  healthy_pos : 1 ≤ healthyThreshold
  min_pos : 1 ≤ minHealthyShards

/-- The shards in the order of their index, so that two sets of serving shards
are the same when the lists are. -/
structure GenerationFleetHealth (n : ℕ) where
  shards : Fin n → ShardHealth
  membershipEpoch : ℕ
  lastServing : List (Fin n)

namespace GenerationFleetHealth

variable {n : ℕ}

def init (baseUrls : Fin n → Option String) : GenerationFleetHealth n :=
  ⟨fun i ↦ ⟨baseUrls i, .healthy, 0, 0, 0, 0, 0⟩, 0, List.finRange n⟩

def servingShards (f : GenerationFleetHealth n) : List (Fin n) :=
  (List.finRange n).filter fun i ↦ (f.shards i).isServing

def servingBaseUrls (f : GenerationFleetHealth n) : List String :=
  f.servingShards.filterMap fun i ↦ (f.shards i).baseUrl.filter (· ≠ "")

def shardForBaseUrl (f : GenerationFleetHealth n) (url : String) : Option (Fin n) :=
  (List.finRange n).find? fun i ↦ (f.shards i).baseUrl = some url

/-- The serving shard with the fewest requests in flight. -/
def nextShard (f : GenerationFleetHealth n) (inflight : Fin n → ℕ) : Option (Fin n) :=
  f.servingShards.argmin inflight

def put (f : GenerationFleetHealth n) (i : Fin n) (shard : ShardHealth) : GenerationFleetHealth n :=
  { f with shards := Function.update f.shards i shard }

def refreshMembership (f : GenerationFleetHealth n) : GenerationFleetHealth n :=
  if f.servingShards ≠ f.lastServing then
    { f with lastServing := f.servingShards, membershipEpoch := f.membershipEpoch + 1 }
  else f

def transition (f : GenerationFleetHealth n) (i : Fin n) (newState : ShardState) :
    GenerationFleetHealth n :=
  if (f.shards i).state = newState then f
  else (f.put i { f.shards i with state := newState }).refreshMembership

def recordProbe (policy : FleetHealthPolicy) (f : GenerationFleetHealth n) (i : Fin n) (ok : Bool) :
    GenerationFleetHealth n :=
  let shard := f.shards i
  if shard.isServing = false then f
  else if ok then
    let shard := { shard with
      consecutiveProbeFailures := 0
      consecutiveProbeSuccesses := shard.consecutiveProbeSuccesses + 1 }
    let f := f.put i shard
    if shard.state = .suspect ∧ policy.healthyThreshold ≤ shard.consecutiveProbeSuccesses then
      f.transition i .healthy
    else f
  else
    let shard := { shard with
      consecutiveProbeSuccesses := 0
      consecutiveProbeFailures := shard.consecutiveProbeFailures + 1 }
    let f := f.put i shard
    if policy.unhealthyThreshold ≤ shard.consecutiveProbeFailures then f.transition i .dead
    else if shard.state = .healthy then f.transition i .suspect
    else f

def reportFailure (policy : FleetHealthPolicy) (f : GenerationFleetHealth n) (i : Fin n) :
    GenerationFleetHealth n :=
  let shard := f.shards i
  if shard.isServing = false then f
  else
    let shard := { shard with
      consecutiveReportedFailures := shard.consecutiveReportedFailures + 1 }
    let f := f.put i shard
    if policy.unhealthyThreshold ≤ shard.consecutiveReportedFailures then f.transition i .dead
    else if shard.state = .healthy then f.transition i .suspect
    else f

def reportSuccess (f : GenerationFleetHealth n) (i : Fin n) : GenerationFleetHealth n :=
  f.put i { f.shards i with consecutiveReportedFailures := 0 }

def retire (f : GenerationFleetHealth n) (i : Fin n) : GenerationFleetHealth n :=
  f.transition i .retired

def markRestarting (policy : FleetHealthPolicy) (f : GenerationFleetHealth n) (i : Fin n) :
    GenerationFleetHealth n :=
  let shard := f.shards i
  if shard.state = .retired then f
  else
    let shard := { shard with restartAttempts := shard.restartAttempts + 1 }
    let f := f.put i shard
    if policy.maxRestartAttemptsPerShard < shard.restartAttempts then f.retire i
    else f.transition i .restarting

def markLoaded (f : GenerationFleetHealth n) (i : Fin n) : GenerationFleetHealth n :=
  if (f.shards i).state = .retired then f else f.transition i .stale

def reportRefit (f : GenerationFleetHealth n) (i : Fin n) (weightVersion : ℤ) :
    GenerationFleetHealth n :=
  let shard := f.shards i
  if shard.state = .retired then f
  else
    (f.put i { shard with
      weightVersion := weightVersion
      consecutiveProbeFailures := 0
      consecutiveProbeSuccesses := 0
      consecutiveReportedFailures := 0 }).transition i .healthy

end GenerationFleetHealth

inductive Op
  | recordProbe (ok : Bool)
  | reportFailure
  | reportSuccess
  | markRestarting
  | markLoaded
  | reportRefit (weightVersion : ℤ)
  | retire
  deriving DecidableEq

abbrev Event (n : ℕ) := Fin n × Op

variable {n : ℕ}

def apply (policy : FleetHealthPolicy) (f : GenerationFleetHealth n) :
    Event n → GenerationFleetHealth n
  | (i, .recordProbe ok) => f.recordProbe policy i ok
  | (i, .reportFailure) => f.reportFailure policy i
  | (i, .reportSuccess) => f.reportSuccess i
  | (i, .markRestarting) => f.markRestarting policy i
  | (i, .markLoaded) => f.markLoaded i
  | (i, .reportRefit weightVersion) => f.reportRefit i weightVersion
  | (i, .retire) => f.retire i

def run (policy : FleetHealthPolicy) (baseUrls : Fin n → Option String) (events : List (Event n)) :
    GenerationFleetHealth n :=
  events.foldl (apply policy) (.init baseUrls)

end NemoRL.Generation.FleetHealth
