import Mathlib
import NemoRL.Foundations.RowMajor

namespace NemoRL.Distributed.WorkerGroups

open Foundations.RowMajor

inductive DispatchError
  /-- `KeyError`, from the size of an axis that the sharding does not have. -/
  | axisSize (axis : String)
  /-- `ValueError`: the worker is not in the layout. -/
  | workerNotFound (workerId : ℕ)
  /-- `ValueError`: the axis is not in the sharding annotations. -/
  | axisNotFound (axis : String) (names : List String)
  /-- `ValueError`: axes cannot be both sharded and replicated. -/
  | overlap (axes : List String)
  | indexError
  | typeError
  deriving DecidableEq

/-- An arrangement of ranks with named axes, the layout in row-major order. -/
structure NamedSharding where
  names : List String
  sizes : List ℕ
  layout : List ℕ
  names_nodup : names.Nodup
  length_names : names.length = sizes.length
  length_layout : layout.length = sizes.prod
  layout_nodup : layout.Nodup

/-- The nested lists that a keyword argument may be, with the references of `ray.put`. -/
inductive Nested (δ : Type)
  | item (x : δ)
  | list (values : List (Nested δ))
  | ref (value : Nested δ)

inductive Future (ρ : Type)
  | ref (result : ρ)
  | generator (chunks : List ρ)

structure MultiWorkerFuture (ρ : Type) where
  futures : List (Future ρ)
  returnFromWorkers : Option (List ℕ)
  calledWorkers : Option (List ℕ)

namespace NamedSharding

variable (S : NamedSharding)

def shape : List (String × ℕ) := S.names.zip S.sizes

def getAxisSize (axis : String) : Except DispatchError ℕ :=
  (S.shape.lookup axis).elim (.error (.axisSize axis)) .ok

def getWorkerCoords (workerId : ℕ) : Except DispatchError (List (String × ℕ)) :=
  (S.layout.idxOf? workerId).elim (.error (.workerNotFound workerId)) fun k ↦
    .ok (S.names.zip (unravel S.sizes k))

end NamedSharding

namespace Nested

variable {δ : Type}

def get : Nested δ → ℕ → Except DispatchError (Nested δ)
  | list values, index => values[index]?.elim (.error .indexError) .ok
  | item _, _ => .error .typeError
  | ref _, _ => .error .typeError

def rayPut : Nested δ → Except DispatchError (Nested δ)
  | ref _ => .error .typeError
  | value => .ok (.ref value)

def mapNestedValueList : ℕ → Nested δ → Except DispatchError (Nested δ)
  | 0, value => rayPut value
  | depth + 1, list values => do
    let mapped ← values.mapM (mapNestedValueList depth)
    return list mapped
  | _ + 1, item _ => .error .typeError
  | _ + 1, ref _ => .error .typeError

def resolve : Nested δ → Nested δ
  | ref value => value
  | value => value

end Nested

section Dispatch

variable {δ ρ : Type}

/-- The loop over the axes of a worker: whether it should receive data, and whether its
result counts. -/
def axisLoop (inShardedAxes replicateOnAxes outputIsReplicated : List String) :
    List (String × ℕ) → Bool → Bool × Bool
  | [], returnFromThisWorker => (true, returnFromThisWorker)
  | (axis, coord) :: coords, returnFromThisWorker =>
    if axis ∉ inShardedAxes ∧ axis ∉ replicateOnAxes ∧ coord ≠ 0 then (false, false)
    else axisLoop inShardedAxes replicateOnAxes outputIsReplicated coords
      (if axis ∈ outputIsReplicated ∧ coord ≠ 0 then false else returnFromThisWorker)

def sliceKwargs (inShardedAxes : List String) (workerCoords : List (String × ℕ))
    (kwargs : List (String × Nested δ)) : Except DispatchError (List (String × Nested δ)) :=
  inShardedAxes.foldlM (fun workerKwargs axis ↦
    match workerCoords.lookup axis with
    | none => .ok workerKwargs
    | some coord => workerKwargs.mapM fun kwarg ↦ (kwarg.2.get coord).map (kwarg.1, ·)) kwargs

def remote (method : ℕ → List (String × Option (Nested δ)) → Future ρ) (workerIdx : ℕ)
    (workerKwargs : List (String × Option (Nested δ))) (commonKwargs : List (String × Nested δ)) :
    Except DispatchError (Future ρ) :=
  if ∃ key ∈ workerKwargs.map Prod.fst, key ∈ commonKwargs.map Prod.fst then .error .typeError
  else .ok (method workerIdx (workerKwargs.map (Prod.map id (Option.map Nested.resolve)) ++
    commonKwargs.map fun kwarg ↦ (kwarg.1, some kwarg.2.resolve)))

/-- The arguments of `run_all_workers_sharded_data` after the method. -/
structure ShardedCall (δ : Type) where
  inShardedAxes : List String
  replicateOnAxes : List String
  outputIsReplicated : List String
  makeDummyCallsToFreeAxes : Bool
  commonKwargs : List (String × Nested δ)
  kwargs : List (String × Nested δ)

structure Dispatched (ρ : Type) where
  futures : List (Future ρ)
  calledWorkers : List ℕ
  returnFromWorkers : List ℕ

def workerStep (S : NamedSharding) (method : ℕ → List (String × Option (Nested δ)) → Future ρ)
    (call : ShardedCall δ) (kwargs : List (String × Nested δ)) (sent : Dispatched ρ)
    (workerIdx : ℕ) : Except DispatchError (Dispatched ρ) := do
  let workerCoords ← S.getWorkerCoords workerIdx
  let flags := axisLoop call.inShardedAxes call.replicateOnAxes call.outputIsReplicated
    workerCoords true
  let returnFromWorkers :=
    if flags.2 then sent.returnFromWorkers ++ [workerIdx] else sent.returnFromWorkers
  if flags.1 then
    let workerKwargs ← sliceKwargs call.inShardedAxes workerCoords kwargs
    let future ← remote method workerIdx (workerKwargs.map fun kwarg ↦ (kwarg.1, some kwarg.2))
      call.commonKwargs
    return ⟨sent.futures ++ [future], sent.calledWorkers ++ [workerIdx], returnFromWorkers⟩
  else if call.makeDummyCallsToFreeAxes then
    let future ← remote method workerIdx (kwargs.map fun kwarg ↦ (kwarg.1, none)) call.commonKwargs
    return ⟨sent.futures ++ [future], sent.calledWorkers ++ [workerIdx], returnFromWorkers⟩
  else return ⟨sent.futures, sent.calledWorkers, returnFromWorkers⟩

def sentKwargs (call : ShardedCall δ) (degrees : List ℕ) :
    Except DispatchError (List (String × Nested δ)) :=
  if degrees.prod > 1 then
    call.kwargs.mapM fun kwarg ↦
      (kwarg.2.mapNestedValueList call.inShardedAxes.length).map (kwarg.1, ·)
  else .ok call.kwargs

def runAllWorkersShardedData (S : NamedSharding) (workers : ℕ)
    (method : ℕ → List (String × Option (Nested δ)) → Future ρ) (call : ShardedCall δ) :
    Except DispatchError (MultiWorkerFuture ρ) := do
  let degrees ← call.replicateOnAxes.mapM S.getAxisSize
  let kwargs ← sentKwargs call degrees
  let axes := call.inShardedAxes ++ call.replicateOnAxes
  (axes.find? (· ∉ S.names)).elim (.ok ()) fun axis ↦ .error (.axisNotFound axis S.names)
  let overlap := call.inShardedAxes.filter (· ∈ call.replicateOnAxes)
  if overlap ≠ [] then throw (.overlap overlap)
  let sent ← (List.range workers).foldlM (workerStep S method call kwargs) ⟨[], [], []⟩
  return ⟨sent.futures, some sent.returnFromWorkers, some sent.calledWorkers⟩

end Dispatch

section Results

variable {ρ : Type}

/-- The index of the last entry for a worker, as a dictionary built from the list has it. -/
def indexOfWorker (calledWorkers : List ℕ) (worker : ℕ) : Option ℕ :=
  (calledWorkers.zipIdx.reverse).lookup worker

def getProxies (future : MultiWorkerFuture ρ) : List (Future ρ) :=
  match future.returnFromWorkers with
  | none => future.futures
  | some returnFromWorkers =>
    returnFromWorkers.filterMap fun worker ↦ match future.calledWorkers with
      | some calledWorkers => (indexOfWorker calledWorkers worker).bind (future.futures[·]?)
      | none => future.futures[worker]?

def Future.results : Future ρ → List ρ × Bool
  | .ref result => ([result], false)
  | .generator chunks => (chunks, !chunks.isEmpty)

def getResults (future : MultiWorkerFuture ρ) : Except DispatchError (List ρ) :=
  let allResults := future.futures.flatMap fun f ↦ f.results.1
  if future.futures.any fun f ↦ f.results.2 then .ok allResults
  else match future.returnFromWorkers with
    | none => .ok allResults
    | some returnFromWorkers =>
      let indices := match future.calledWorkers with
        | some calledWorkers => returnFromWorkers.filterMap (indexOfWorker calledWorkers)
        | none => returnFromWorkers
      indices.mapM fun idx ↦ allResults[idx]?.elim (.error .indexError) .ok

end Results

end NemoRL.Distributed.WorkerGroups
