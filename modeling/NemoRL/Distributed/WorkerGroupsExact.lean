import Mathlib
import NemoRL.Distributed.WorkerGroups
import NemoRL.Foundations.Blocks

namespace NemoRL.Distributed.WorkerGroups

open Foundations.RowMajor Foundations.Blocks

namespace Nested

variable {δ : Type}

def part : Nested δ → List ℕ → Option (Nested δ)
  | value, [] => some value
  | list values, index :: path => values[index]?.bind (part · path)
  | item _, _ :: _ => none
  | ref _, _ :: _ => none

/-- Lists nested by these sizes, with what is not a reference inside. -/
def Shaped : List ℕ → Nested δ → Prop
  | [], value => value.resolve = value
  | size :: sizes, list values => values.length = size ∧ ∀ value ∈ values, Shaped sizes value
  | _ :: _, item _ => False
  | _ :: _, ref _ => False

theorem rayPut_eq {value : Nested δ} (h : value.resolve = value) : value.rayPut = .ok (.ref value) := by
  cases value with
  | item x => rfl
  | list values => rfl
  | ref inner =>
    have hsize := congrArg sizeOf h
    simp [resolve] at hsize

theorem Shaped.part {sizes path : List ℕ} {value : Nested δ} (h : Shaped sizes value)
    (hpath : List.Forall₂ (· < ·) path sizes) :
    ∃ inside, value.part path = some inside ∧ inside.resolve = inside := by
  induction hpath generalizing value with
  | nil => exact ⟨value, by rw [Nested.part], h⟩
  | @cons index size path sizes hlt _ ih =>
    cases value with
    | item x => exact h.elim
    | ref inner => exact h.elim
    | list values =>
      obtain ⟨rfl, hall⟩ := h
      rw [Nested.part, List.getElem?_eq_getElem hlt, Option.bind_some]
      exact ih (hall _ (List.getElem_mem hlt))

theorem Shaped.mapNested {sizes : List ℕ} {value : Nested δ} (h : Shaped sizes value) :
    ∃ mapped, value.mapNestedValueList sizes.length = .ok mapped ∧
      ∀ path, List.Forall₂ (· < ·) path sizes →
        mapped.part path = (value.part path).map .ref := by
  induction sizes generalizing value with
  | nil =>
    refine ⟨.ref value, rayPut_eq h, ?_⟩
    intro path hpath
    rw [List.forall₂_nil_right_iff.mp hpath, Nested.part, Nested.part, Option.map_some]
  | cons size sizes ih =>
    cases value with
    | item x => exact h.elim
    | ref inner => exact h.elim
    | list values =>
      obtain ⟨hlen, hall⟩ := h
      obtain ⟨mapped, hmapped, hrel⟩ := mapM_ok (R := fun value mapped : Nested δ ↦ ∀ path,
        List.Forall₂ (· < ·) path sizes → mapped.part path = (value.part path).map .ref)
          fun value hvalue ↦ ih (hall value hvalue)
      refine ⟨.list mapped, ?_, ?_⟩
      · rw [List.length_cons, mapNestedValueList, hmapped]
        rfl
      · intro path hpath
        cases hpath with
        | @cons index _ path _ hlt hrest =>
          rw [Nested.part, Nested.part]
          have hlt' : index < values.length := hlen ▸ hlt
          have hget := List.forall₂_iff_get.mp hrel
          have hmlt : index < mapped.length := hget.1 ▸ hlt'
          rw [List.getElem?_eq_getElem hlt', List.getElem?_eq_getElem hmlt, Option.bind_some,
            Option.bind_some]
          exact hget.2 index hlt' hmlt path hrest

end Nested

section Workers

variable {δ ρ : Type} (call : ShardedCall δ)

namespace ShardedCall

def receives (coords : List (String × ℕ)) : Bool :=
  coords.all fun c ↦ c.1 ∈ call.inShardedAxes ∨ c.1 ∈ call.replicateOnAxes ∨ c.2 = 0

def returns (coords : List (String × ℕ)) : Bool :=
  call.receives coords && coords.all fun c ↦ c.1 ∈ call.outputIsReplicated → c.2 = 0

/-- The coordinates of a worker along the sharded axes, in the order of these. -/
def path (coords : List (String × ℕ)) : List ℕ :=
  call.inShardedAxes.map fun axis ↦ (coords.lookup axis).getD 0

/-- What a worker is called with: the slice of each argument at its place, or `None`. -/
def arguments (coords : List (String × ℕ)) : List (String × Option (Nested δ)) :=
  call.kwargs.map (fun kwarg ↦
    (kwarg.1, if call.receives coords then kwarg.2.part (call.path coords) else none)) ++
  call.commonKwargs.map fun kwarg ↦ (kwarg.1, some kwarg.2.resolve)

theorem arguments_of_receives {coords : List (String × ℕ)} (h : call.receives coords = true) :
    call.arguments coords =
      call.kwargs.map (fun kwarg ↦ (kwarg.1, kwarg.2.part (call.path coords))) ++
        call.commonKwargs.map fun kwarg ↦ (kwarg.1, some kwarg.2.resolve) := by
  rw [arguments, h]
  rfl

theorem arguments_of_not_receives {coords : List (String × ℕ)}
    (h : call.receives coords = false) :
    call.arguments coords = call.kwargs.map (fun kwarg ↦ (kwarg.1, none)) ++
      call.commonKwargs.map fun kwarg ↦ (kwarg.1, some kwarg.2.resolve) := by
  rw [arguments, h]
  rfl

end ShardedCall

theorem axisLoop_eq (coords : List (String × ℕ)) (returnFromThisWorker : Bool) :
    axisLoop call.inShardedAxes call.replicateOnAxes call.outputIsReplicated coords
      returnFromThisWorker = (call.receives coords, call.receives coords &&
        (returnFromThisWorker && coords.all fun c ↦ c.1 ∈ call.outputIsReplicated → c.2 = 0)) := by
  induction coords generalizing returnFromThisWorker with
  | nil => simp [axisLoop, ShardedCall.receives]
  | cons c coords ih =>
    obtain ⟨axis, coord⟩ := c
    rw [axisLoop]
    by_cases hfree : axis ∉ call.inShardedAxes ∧ axis ∉ call.replicateOnAxes ∧ coord ≠ 0
    · have hnot : call.receives ((axis, coord) :: coords) = false := by
        simp [ShardedCall.receives, hfree]
      rw [if_pos hfree, hnot, Bool.false_and]
    · have hsame : call.receives ((axis, coord) :: coords) = call.receives coords := by
        have haxis : axis ∈ call.inShardedAxes ∨ axis ∈ call.replicateOnAxes ∨ coord = 0 := by
          by_contra h
          exact hfree (by simpa [not_or] using h)
        simp [ShardedCall.receives, haxis]
      rw [if_neg hfree, ih, hsame, List.all_cons]
      by_cases hout : axis ∈ call.outputIsReplicated ∧ coord ≠ 0
      · simp [hout]
      · have himp : axis ∈ call.outputIsReplicated → coord = 0 := by
          intro h
          by_contra hne
          exact hout ⟨h, hne⟩
        rw [if_neg hout, decide_eq_true himp, Bool.true_and]

theorem mapM_get {kwargs : List (String × Nested δ)} {coord : ℕ} {rest : List ℕ}
    (h : ∀ kwarg ∈ kwargs, ∃ inside, kwarg.2.part (coord :: rest) = some inside) :
    ∃ sliced, (kwargs.mapM fun kwarg ↦ (kwarg.2.get coord).map (kwarg.1, ·)) = .ok sliced ∧
      List.Forall₂ (fun kwarg slice : String × Nested δ ↦ slice.1 = kwarg.1 ∧
        slice.2.part rest = kwarg.2.part (coord :: rest)) kwargs sliced := by
  apply mapM_ok
  intro kwarg hkwarg
  obtain ⟨inside, hinside⟩ := h kwarg hkwarg
  obtain ⟨key, value⟩ := kwarg
  cases value with
  | item x => cases hinside
  | ref inner => cases hinside
  | list values =>
    rw [Nested.part] at hinside
    obtain ⟨entry, hentry, -⟩ := Option.bind_eq_some_iff.mp hinside
    refine ⟨(key, entry), ?_, rfl, ?_⟩
    · rw [Nested.get, hentry]
      rfl
    · rw [Nested.part, hentry, Option.bind_some]

theorem sliceKwargs_eq {axes : List String} {coords : List (String × ℕ)}
    {kwargs : List (String × Nested δ)} (haxes : ∀ axis ∈ axes, (coords.lookup axis).isSome)
    (h : ∀ kwarg ∈ kwargs, ∃ inside,
      kwarg.2.part (axes.map fun axis ↦ (coords.lookup axis).getD 0) = some inside) :
    ∃ sliced, sliceKwargs axes coords kwargs = .ok sliced ∧
      sliced.map (fun kwarg ↦ (kwarg.1, some kwarg.2)) = kwargs.map fun kwarg ↦
        (kwarg.1, kwarg.2.part (axes.map fun axis ↦ (coords.lookup axis).getD 0)) := by
  induction axes generalizing kwargs with
  | nil =>
    refine ⟨kwargs, rfl, List.map_congr_left fun kwarg _ ↦ ?_⟩
    rw [List.map_nil, Nested.part]
  | cons axis axes ih =>
    obtain ⟨hsome, hrest⟩ := List.forall_mem_cons.mp haxes
    obtain ⟨coord, hcoord⟩ := Option.isSome_iff_exists.mp hsome
    simp only [List.map_cons, hcoord, Option.getD_some] at h ⊢
    obtain ⟨first, hfirst, hrel⟩ := mapM_get h
    have hparts : ∀ kwarg ∈ first, ∃ inside,
        kwarg.2.part (axes.map fun axis ↦ (coords.lookup axis).getD 0) = some inside := by
      intro kwarg hkwarg
      obtain ⟨i, hi, rfl⟩ := List.mem_iff_getElem.mp hkwarg
      have hget := List.forall₂_iff_get.mp hrel
      have hi' : i < kwargs.length := hget.1.symm ▸ hi
      obtain ⟨inside, hinside⟩ := h _ (List.getElem_mem hi')
      exact ⟨inside, (hget.2 i hi' hi).2.trans hinside⟩
    obtain ⟨sliced, hsliced, hmap⟩ := ih hrest hparts
    refine ⟨sliced, ?_, ?_⟩
    · rw [sliceKwargs, List.foldlM_cons, hcoord]
      exact (congrArg (· >>= _) hfirst).trans hsliced
    · rw [hmap]
      exact map_eq_map_of_forall₂ (hrel.imp fun kwarg slice hslice ↦ by rw [hslice.1, hslice.2])

theorem remote_eq {method : ℕ → List (String × Option (Nested δ)) → Future ρ} (worker : ℕ)
    {workerKwargs : List (String × Option (Nested δ))}
    (hkeys : workerKwargs.map Prod.fst = call.kwargs.map Prod.fst)
    (hcommon : ∀ key ∈ call.kwargs.map Prod.fst, key ∉ call.commonKwargs.map Prod.fst) :
    remote method worker workerKwargs call.commonKwargs =
      .ok (method worker (workerKwargs.map (Prod.map id (Option.map Nested.resolve)) ++
        call.commonKwargs.map fun kwarg ↦ (kwarg.1, some kwarg.2.resolve))) := by
  rw [remote, if_neg]
  rintro ⟨key, hkey, hmem⟩
  exact hcommon key (hkeys ▸ hkey) hmem

/-- The arguments that are sent: those given, each as it is or put in its places. -/
def SentAs (path : List ℕ) (kwargs sent : List (String × Nested δ)) : Prop :=
  List.Forall₂ (fun kwarg kwarg' : String × Nested δ ↦ kwarg'.1 = kwarg.1 ∧
    ∃ inside, kwarg'.2.part path = some inside ∧ kwarg.2.part path = some inside.resolve)
    kwargs sent

theorem SentAs.keys {path : List ℕ} {kwargs sent : List (String × Nested δ)}
    (h : SentAs path kwargs sent) : sent.map Prod.fst = kwargs.map Prod.fst :=
  map_eq_map_of_forall₂ (h.imp fun _ _ hkwarg ↦ hkwarg.1.symm)

theorem SentAs.slices {path : List ℕ} {kwargs sent : List (String × Nested δ)}
    (h : SentAs path kwargs sent) :
    (sent.map fun kwarg ↦ (kwarg.1, (kwarg.2.part path).map Nested.resolve)) =
      kwargs.map fun kwarg ↦ (kwarg.1, kwarg.2.part path) := by
  refine map_eq_map_of_forall₂ (h.imp fun kwarg kwarg' hkwarg ↦ ?_)
  obtain ⟨hkey, inside, hinside, hpart⟩ := hkwarg
  rw [hkey, hinside, hpart, Option.map_some]

variable {call} {S : NamedSharding} {sent : List (String × Nested δ)}
  {method : ℕ → List (String × Option (Nested δ)) → Future ρ}

theorem workerStep_eq {worker : ℕ} {coords : List (String × ℕ)}
    (hcoords : S.getWorkerCoords worker = .ok coords)
    (haxes : ∀ axis ∈ call.inShardedAxes, (coords.lookup axis).isSome)
    (hsent : SentAs (call.path coords) call.kwargs sent)
    (hcommon : ∀ key ∈ call.kwargs.map Prod.fst, key ∉ call.commonKwargs.map Prod.fst)
    (done : Dispatched ρ) :
    workerStep S method call sent done worker = .ok
      ⟨done.futures ++ (if call.receives coords || call.makeDummyCallsToFreeAxes then
          [method worker (call.arguments coords)] else []),
        done.calledWorkers ++ (if call.receives coords || call.makeDummyCallsToFreeAxes then
          [worker] else []),
        done.returnFromWorkers ++ if call.returns coords then [worker] else []⟩ := by
  have hflags := axisLoop_eq call coords true
  rw [Bool.true_and] at hflags
  have hret : (if call.returns coords then done.returnFromWorkers ++ [worker]
      else done.returnFromWorkers) =
        done.returnFromWorkers ++ if call.returns coords then [worker] else [] := by
    split
    · rfl
    · rw [List.append_nil]
  have hreturns : (call.receives coords && coords.all fun c ↦
      c.1 ∈ call.outputIsReplicated → c.2 = 0) = call.returns coords := rfl
  rw [hreturns] at hflags
  cases hreceives : call.receives coords with
  | true =>
    have hslices : ∀ kwarg ∈ sent, ∃ inside, kwarg.2.part (call.path coords) = some inside := by
      intro kwarg hkwarg
      obtain ⟨i, hi, rfl⟩ := List.mem_iff_getElem.mp hkwarg
      have hget := List.forall₂_iff_get.mp hsent
      obtain ⟨-, inside, hinside, -⟩ := hget.2 i (hget.1.symm ▸ hi) hi
      exact ⟨inside, hinside⟩
    obtain ⟨sliced, hsliced, hmap⟩ := sliceKwargs_eq haxes hslices
    have hkeys : (sliced.map fun kwarg ↦ (kwarg.1, some kwarg.2)).map Prod.fst =
        call.kwargs.map Prod.fst := by
      rw [hmap, List.map_map]
      exact hsent.keys
    have hremote := @remote_eq _ _ call method worker _ hkeys hcommon
    have harguments : (sliced.map fun kwarg ↦ (kwarg.1, some kwarg.2)).map
        (Prod.map id (Option.map Nested.resolve)) =
          call.kwargs.map fun kwarg ↦ (kwarg.1, kwarg.2.part (call.path coords)) := by
      rw [hmap, List.map_map]
      exact hsent.slices
    rw [harguments, ← call.arguments_of_receives hreceives] at hremote
    simp only [workerStep, hcoords, bind, Except.bind, hflags, hreceives, if_true, hsliced, hremote,
      pure, Except.pure, Bool.true_or, hret]
  | false =>
    have hnone := call.arguments_of_not_receives hreceives
    cases hdummy : call.makeDummyCallsToFreeAxes with
    | true =>
      have hkeys : (sent.map fun kwarg ↦ (kwarg.1, (none : Option (Nested δ)))).map Prod.fst =
          call.kwargs.map Prod.fst := by
        rw [List.map_map]
        exact hsent.keys
      have hremote := @remote_eq _ _ call method worker _ hkeys hcommon
      have harguments : (sent.map fun kwarg ↦ (kwarg.1, (none : Option (Nested δ)))).map
          (Prod.map id (Option.map Nested.resolve)) =
            call.kwargs.map fun kwarg ↦ (kwarg.1, none) := by
        rw [List.map_map]
        exact map_eq_map_of_forall₂ (hsent.imp fun kwarg kwarg' hkwarg ↦
          congrArg (·, none) hkwarg.1.symm)
      rw [harguments, ← hnone] at hremote
      simp only [workerStep, hcoords, bind, Except.bind, hflags, hreceives, if_true, hremote,
        pure, Except.pure, Bool.or_true, hret, Bool.false_eq_true, if_false, hdummy]
    | false =>
      simp only [workerStep, hcoords, bind, Except.bind, hflags, hreceives, pure, Except.pure,
        Bool.or_self, hret, Bool.false_eq_true, if_false, hdummy, List.append_nil]

def ShardedCall.calls (call : ShardedCall δ) (coords : List (String × ℕ)) : Bool :=
  call.receives coords || call.makeDummyCallsToFreeAxes

theorem workers_foldlM {coords : ℕ → List (String × ℕ)} {workers : List ℕ}
    (hworkers : ∀ worker ∈ workers, S.getWorkerCoords worker = .ok (coords worker) ∧
      (∀ axis ∈ call.inShardedAxes, ((coords worker).lookup axis).isSome) ∧
      SentAs (call.path (coords worker)) call.kwargs sent)
    (hcommon : ∀ key ∈ call.kwargs.map Prod.fst, key ∉ call.commonKwargs.map Prod.fst)
    (done : Dispatched ρ) :
    workers.foldlM (workerStep S method call sent) done = .ok
      ⟨done.futures ++ (workers.filter fun worker ↦ call.calls (coords worker)).map
          fun worker ↦ method worker (call.arguments (coords worker)),
        done.calledWorkers ++ workers.filter fun worker ↦ call.calls (coords worker),
        done.returnFromWorkers ++ workers.filter fun worker ↦ call.returns (coords worker)⟩ := by
  induction workers generalizing done with
  | nil =>
    simp only [List.filter_nil, List.map_nil, List.append_nil]
    rfl
  | cons worker workers ih =>
    obtain ⟨⟨hcoords, haxes, hsent⟩, hrest⟩ := List.forall_mem_cons.mp hworkers
    rw [List.foldlM_cons, workerStep_eq hcoords haxes hsent hcommon]
    refine (ih hrest _).trans ?_
    rw [List.filter_cons, List.filter_cons, ShardedCall.calls]
    split_ifs <;> simp only [List.append_nil, List.append_assoc, List.singleton_append,
      List.map_cons]

end Workers

section Coordinates

variable (S : NamedSharding)

def NamedSharding.coordsOf (worker : ℕ) : List (String × ℕ) :=
  S.names.zip (unravel S.sizes worker)

def NamedSharding.sizeOf (axis : String) : ℕ := (S.shape.lookup axis).getD 0

theorem lookup_zip {names : List String} {index sizes : List ℕ}
    (hlen : names.length = sizes.length) (h : List.Forall₂ (· < ·) index sizes) {axis : String}
    (haxis : axis ∈ names) : ∃ coord size, (names.zip index).lookup axis = some coord ∧
      (names.zip sizes).lookup axis = some size ∧ coord < size := by
  induction h generalizing names with
  | nil =>
    rw [List.length_eq_zero_iff.mp hlen] at haxis
    simp at haxis
  | @cons coord size index sizes hlt _ ih =>
    cases names with
    | nil => simp at haxis
    | cons name names =>
      by_cases hname : axis = name
      · subst hname
        exact ⟨coord, size, by simp, by simp, hlt⟩
      · have hne : (axis == name) = false := by simpa using hname
        obtain ⟨c, s, hc, hs, hcs⟩ := ih (Nat.succ.inj hlen) ((List.mem_cons.mp haxis).resolve_left hname)
        refine ⟨c, s, ?_, ?_, hcs⟩
        · rw [List.zip_cons_cons, List.lookup_cons, hne]
          exact hc
        · rw [List.zip_cons_cons, List.lookup_cons, hne]
          exact hs

variable {S}

theorem getWorkerCoords_eq (hlayout : S.layout = List.range S.sizes.prod) {worker : ℕ}
    (hworker : worker < S.sizes.prod) : S.getWorkerCoords worker = .ok (S.coordsOf worker) := by
  have hindex : (List.range S.sizes.prod).idxOf? worker = some worker := by
    refine List.idxOf?_eq_some_iff.mpr ⟨by rwa [List.length_range], List.getElem_range _, ?_⟩
    intro j hj
    rw [List.getElem_range]
    exact hj.ne
  rw [NamedSharding.getWorkerCoords, hlayout, hindex]
  rfl

theorem unravel_valid {worker : ℕ} (hworker : worker < S.sizes.prod) :
    List.Forall₂ (· < ·) (unravel S.sizes worker) S.sizes :=
  unravel_lt (pos_of_lt_prod hworker) worker

theorem path_valid {δ : Type} {call : ShardedCall δ} (hin : ∀ axis ∈ call.inShardedAxes, axis ∈ S.names)
    {worker : ℕ} (hworker : worker < S.sizes.prod) :
    List.Forall₂ (· < ·) (call.path (S.coordsOf worker)) (call.inShardedAxes.map S.sizeOf) := by
  rw [ShardedCall.path, List.forall₂_map_left_iff, List.forall₂_map_right_iff, List.forall₂_same]
  intro axis haxis
  obtain ⟨coord, size, hcoord, hsize, hlt⟩ :=
    lookup_zip S.length_names (unravel_valid hworker) (hin axis haxis)
  rw [NamedSharding.coordsOf, hcoord, NamedSharding.sizeOf, NamedSharding.shape, hsize]
  exact hlt

end Coordinates

section Sending

variable {δ : Type} {call : ShardedCall δ} {S : NamedSharding}

theorem sentKwargs_eq (degrees : List ℕ)
    (hkwargs : ∀ kwarg ∈ call.kwargs, kwarg.2.Shaped (call.inShardedAxes.map S.sizeOf)) :
    ∃ sent, sentKwargs call degrees = .ok sent ∧ ∀ path,
      List.Forall₂ (· < ·) path (call.inShardedAxes.map S.sizeOf) →
        SentAs path call.kwargs sent := by
  rw [sentKwargs]
  split
  · obtain ⟨sent, hsent, hrel⟩ := mapM_ok (l := call.kwargs)
      (f := fun kwarg ↦
        (kwarg.2.mapNestedValueList call.inShardedAxes.length).map (kwarg.1, ·))
      (R := fun kwarg kwarg' : String × Nested δ ↦ kwarg'.1 = kwarg.1 ∧
        kwarg.2.Shaped (call.inShardedAxes.map S.sizeOf) ∧ ∀ path,
          List.Forall₂ (· < ·) path (call.inShardedAxes.map S.sizeOf) →
            kwarg'.2.part path = (kwarg.2.part path).map .ref) (by
        intro kwarg hkwarg
        obtain ⟨mapped, hmapped, hparts⟩ := (hkwargs kwarg hkwarg).mapNested
        rw [List.length_map] at hmapped
        exact ⟨(kwarg.1, mapped), by rw [hmapped]; rfl, rfl, hkwargs kwarg hkwarg, hparts⟩)
    refine ⟨sent, hsent, fun path hpath ↦ hrel.imp fun kwarg kwarg' h ↦ ⟨h.1, ?_⟩⟩
    obtain ⟨inside, hinside, -⟩ := h.2.1.part hpath
    refine ⟨.ref inside, ?_, ?_⟩
    · rw [h.2.2 path hpath, hinside, Option.map_some]
    · rw [hinside, Nested.resolve]
  · refine ⟨call.kwargs, rfl, fun path hpath ↦ List.forall₂_same.mpr fun kwarg hkwarg ↦ ⟨rfl, ?_⟩⟩
    obtain ⟨inside, hinside, hresolve⟩ := (hkwargs kwarg hkwarg).part hpath
    exact ⟨inside, hinside, by rw [hresolve, hinside]⟩

theorem getAxisSize_mapM {axes : List String} (haxes : ∀ axis ∈ axes, axis ∈ S.names) :
    axes.mapM S.getAxisSize = .ok (axes.map S.sizeOf) := by
  refine mapM_pure_of_forall fun axis haxis ↦ ?_
  have hshape : axis ∈ S.shape.map Prod.fst := by
    rw [NamedSharding.shape, List.map_fst_zip S.length_names.le]
    exact haxes axis haxis
  obtain ⟨size, hsize⟩ : ∃ size, S.shape.lookup axis = some size := by
    rw [← Option.isSome_iff_exists, List.lookup_isSome_iff]
    obtain ⟨entry, hentry, rfl⟩ := List.mem_map.mp hshape
    exact ⟨entry, hentry, beq_self_eq_true _⟩
  rw [NamedSharding.getAxisSize, NamedSharding.sizeOf, hsize]
  rfl

/-- What every dispatch is given: axes that the sharding has, none of them both sharded and
replicated, and arguments nested by the sizes of the sharded axes. -/
structure WellFormed (S : NamedSharding) (call : ShardedCall δ) : Prop where
  layout_eq : S.layout = List.range S.sizes.prod
  sharded : ∀ axis ∈ call.inShardedAxes, axis ∈ S.names
  replicated : ∀ axis ∈ call.replicateOnAxes, axis ∈ S.names
  disjoint : ∀ axis ∈ call.inShardedAxes, axis ∉ call.replicateOnAxes
  output : ∀ axis ∈ call.replicateOnAxes, axis ∈ call.outputIsReplicated
  shaped : ∀ kwarg ∈ call.kwargs, kwarg.2.Shaped (call.inShardedAxes.map S.sizeOf)
  common : ∀ key ∈ call.kwargs.map Prod.fst, key ∉ call.commonKwargs.map Prod.fst

def calledWorkers (S : NamedSharding) (call : ShardedCall δ) : List ℕ :=
  (List.range S.sizes.prod).filter fun worker ↦ call.calls (S.coordsOf worker)

def returningWorkers (S : NamedSharding) (call : ShardedCall δ) : List ℕ :=
  (List.range S.sizes.prod).filter fun worker ↦ call.returns (S.coordsOf worker)

variable {ρ : Type}

theorem runAllWorkersShardedData_eq (h : WellFormed S call)
    (method : ℕ → List (String × Option (Nested δ)) → Future ρ) :
    runAllWorkersShardedData S S.sizes.prod method call = .ok
      ⟨(calledWorkers S call).map fun worker ↦
          method worker (call.arguments (S.coordsOf worker)),
        some (returningWorkers S call), some (calledWorkers S call)⟩ := by
  obtain ⟨sent, hsent, hparts⟩ := sentKwargs_eq (call.replicateOnAxes.map S.sizeOf) h.shaped
  have hfind : (call.inShardedAxes ++ call.replicateOnAxes).find? (· ∉ S.names) = none := by
    refine List.find?_eq_none.mpr fun axis haxis ↦ ?_
    have hname : axis ∈ S.names :=
      (List.mem_append.mp haxis).elim (h.sharded axis) (h.replicated axis)
    simpa using hname
  have hoverlap : call.inShardedAxes.filter (· ∈ call.replicateOnAxes) = [] :=
    List.filter_eq_nil_iff.mpr fun axis haxis ↦ by simpa using h.disjoint axis haxis
  have hworkers : ∀ worker ∈ List.range S.sizes.prod,
      S.getWorkerCoords worker = .ok (S.coordsOf worker) ∧
        (∀ axis ∈ call.inShardedAxes, ((S.coordsOf worker).lookup axis).isSome) ∧
        SentAs (call.path (S.coordsOf worker)) call.kwargs sent := by
    intro worker hworker
    have hlt := List.mem_range.mp hworker
    refine ⟨getWorkerCoords_eq h.layout_eq hlt, fun axis haxis ↦ ?_,
      hparts _ (path_valid h.sharded hlt)⟩
    obtain ⟨coord, -, hcoord, -⟩ :=
      lookup_zip S.length_names (unravel_valid hlt) (h.sharded axis haxis)
    rw [NamedSharding.coordsOf, hcoord]
    rfl
  have hloop := @workers_foldlM _ _ call S sent method S.coordsOf _ hworkers h.common ⟨[], [], []⟩
  simp only [runAllWorkersShardedData, getAxisSize_mapM h.replicated, bind, Except.bind, hsent,
    hfind, Option.elim_none, hoverlap, ne_eq, not_true_eq_false, if_false, hloop, List.nil_append,
    pure, Except.pure]
  rfl

end Sending

section Results

variable {δ ρ : Type} {call : ShardedCall δ} {S : NamedSharding}

theorem indexOfWorker_eq {called : List ℕ} {worker : ℕ} (h : worker ∈ called) :
    ∃ i, indexOfWorker called worker = some i ∧ called[i]? = some worker := by
  obtain ⟨k, hk, hget⟩ := List.mem_iff_getElem.mp h
  have hmem : (worker, k) ∈ called.zipIdx.reverse := by
    rw [List.mem_reverse, List.mk_mem_zipIdx_iff_getElem?, List.getElem?_eq_getElem hk, hget]
  obtain ⟨i, hi⟩ : ∃ i, called.zipIdx.reverse.lookup worker = some i := by
    rw [← Option.isSome_iff_exists, List.lookup_isSome_iff]
    exact ⟨_, hmem, beq_self_eq_true worker⟩
  obtain ⟨before, after, hsplit, -⟩ := List.lookup_eq_some_iff.mp hi
  have hfound : (worker, i) ∈ called.zipIdx.reverse := by
    rw [hsplit]
    exact List.mem_append_right _ List.mem_cons_self
  exact ⟨i, hi, List.mk_mem_zipIdx_iff_getElem?.mp (List.mem_reverse.mp hfound)⟩

theorem getResults_eq {result : ℕ → ρ} {returning called : List ℕ}
    (h : ∀ worker ∈ returning, worker ∈ called) :
    getResults ⟨called.map fun worker ↦ .ref (result worker), some returning, some called⟩ =
        .ok (returning.map result) ∧
      getProxies ⟨called.map fun worker ↦ .ref (result worker), some returning, some called⟩ =
        returning.map fun worker ↦ .ref (result worker) := by
  have hall : (called.map fun worker ↦ Future.ref (result worker)).flatMap (fun f ↦ f.results.1) =
      called.map result := by
    rw [List.flatMap_map, List.map_eq_flatMap]
    rfl
  have hnone : (called.map fun worker ↦ Future.ref (result worker)).any (fun f ↦ f.results.2) =
      false := by
    simp [Future.results]
  have hindices : (returning.filterMap (indexOfWorker called)).mapM (fun idx ↦
      (called.map result)[idx]?.elim (.error .indexError) .ok) =
        (.ok (returning.map result) : Except DispatchError (List ρ)) := by
    induction returning with
    | nil => rfl
    | cons worker returning ih =>
      obtain ⟨hworker, hrest⟩ := List.forall_mem_cons.mp h
      obtain ⟨i, hi, hget⟩ := indexOfWorker_eq hworker
      rw [List.filterMap_cons_some hi, List.mapM_cons, ih hrest, List.getElem?_map, hget]
      rfl
  constructor
  · simp only [getResults, hall, hnone, Bool.false_eq_true, if_false, hindices]
  · have heach : ∀ worker ∈ returning, (indexOfWorker called worker).bind
        ((called.map fun worker ↦ Future.ref (result worker))[·]?) =
          some (.ref (result worker)) := by
      intro worker hworker
      obtain ⟨i, hi, hget⟩ := indexOfWorker_eq (h worker hworker)
      rw [hi, Option.bind_some, List.getElem?_map, hget]
      rfl
    rw [getProxies]
    dsimp only
    rw [List.filterMap_congr heach]
    exact congrFun (List.filterMap_eq_map (f := fun worker ↦ Future.ref (result worker))) returning

theorem mem_called_of_returning {worker : ℕ} (h : worker ∈ returningWorkers S call) :
    worker ∈ calledWorkers S call := by
  obtain ⟨hrange, hreturns⟩ := List.mem_filter.mp h
  refine List.mem_filter.mpr ⟨hrange, ?_⟩
  rw [ShardedCall.returns, Bool.and_eq_true] at hreturns
  rw [ShardedCall.calls, hreturns.1, Bool.true_or]

/-- The coordinates of the workers whose results count. -/
def returningIndices (S : NamedSharding) (call : ShardedCall δ) : List (List ℕ) :=
  (returningWorkers S call).map (unravel S.sizes)

theorem returningIndices_pairwise : (returningIndices S call).Pairwise (· < ·) := by
  rw [returningIndices, List.pairwise_map]
  have hrange : (returningWorkers S call).Pairwise (· < ·) := List.pairwise_lt_range.filter _
  refine hrange.imp_of_mem fun {a b} _ hb hlt ↦ ?_
  exact unravel_lt_unravel hlt (List.mem_range.mp (List.mem_filter.mp hb).1)

/-- A result for each combination of coordinates of the sharded axes along which the output is
not replicated, from the worker at the start of the others. -/
theorem mem_returningIndices (h : WellFormed S call) {index : List ℕ} :
    index ∈ returningIndices S call ↔ List.Forall₂ (· < ·) index S.sizes ∧
      ∀ c ∈ S.names.zip index, c.1 ∉ call.inShardedAxes ∨ c.1 ∈ call.outputIsReplicated →
        c.2 = 0 := by
  have hreturns : ∀ coords : List (String × ℕ), call.returns coords = true ↔
      ∀ c ∈ coords, c.1 ∉ call.inShardedAxes ∨ c.1 ∈ call.outputIsReplicated → c.2 = 0 := by
    intro coords
    simp only [ShardedCall.returns, ShardedCall.receives, Bool.and_eq_true, List.all_eq_true,
      decide_eq_true_eq]
    constructor
    · rintro ⟨hfree, hout⟩ c hc (hnot | hrep)
      · rcases hfree c hc with hin | hrep | hzero
        · exact absurd hin hnot
        · exact hout c hc (h.output c.1 hrep)
        · exact hzero
      · exact hout c hc hrep
    · intro hzero
      refine ⟨fun c hc ↦ ?_, fun c hc hout ↦ hzero c hc (.inr hout)⟩
      by_cases hin : c.1 ∈ call.inShardedAxes
      · exact .inl hin
      · exact .inr (.inr (hzero c hc (.inl hin)))
  constructor
  · intro hindex
    obtain ⟨worker, hworker, rfl⟩ := List.mem_map.mp hindex
    obtain ⟨hrange, hret⟩ := List.mem_filter.mp hworker
    exact ⟨unravel_valid (List.mem_range.mp hrange), (hreturns _).mp hret⟩
  · rintro ⟨hvalid, hzero⟩
    have hunravel := unravel_ravel hvalid
    refine List.mem_map.mpr ⟨ravel S.sizes index, List.mem_filter.mpr ⟨?_, ?_⟩, hunravel⟩
    · exact List.mem_range.mpr (ravel_lt hvalid)
    · rw [hreturns, NamedSharding.coordsOf, hunravel]
      exact hzero

theorem map_lookup_zip {names : List String} {l : List ℕ} (hnodup : names.Nodup)
    (hlen : names.length = l.length) :
    (names.map fun name ↦ ((names.zip l).lookup name).getD 0) = l := by
  induction names generalizing l with
  | nil => exact (List.length_eq_zero_iff.mp hlen.symm).symm
  | cons name names ih =>
    obtain ⟨x, l, rfl⟩ := List.exists_cons_of_length_eq_add_one hlen.symm
    obtain ⟨hnot, hnodup⟩ := List.nodup_cons.mp hnodup
    rw [List.map_cons, List.zip_cons_cons, List.lookup_cons_self, Option.getD_some]
    congr 1
    refine Eq.trans (List.map_congr_left fun other hother ↦ ?_) (ih hnodup (Nat.succ.inj hlen))
    have hne : (other == name) = false := by
      rw [beq_eq_false_iff_ne]
      rintro rfl
      exact hnot hother
    rw [List.lookup_cons, hne]

/-- The index at a place of one axis and at the start of the others. -/
def axisIndex (names : List String) (axis : String) (i : ℕ) : List ℕ :=
  names.map fun name ↦ if name = axis then i else 0

theorem axisIndex_lt {names : List String} {axis : String} (haxis : axis ∈ names) {i j : ℕ}
    (hij : i < j) : axisIndex names axis i < axisIndex names axis j := by
  induction names with
  | nil => simp at haxis
  | cons name names ih =>
    rw [axisIndex, axisIndex, List.map_cons, List.map_cons]
    by_cases hname : name = axis
    · rw [if_pos hname, if_pos hname]
      exact .rel hij
    · rw [if_neg hname, if_neg hname]
      exact .cons (ih ((List.mem_cons.mp haxis).resolve_left (Ne.symm hname)))

theorem returningIndices_one (h : WellFormed S call) {axis : String}
    (haxis : call.inShardedAxes = [axis]) (hout : axis ∉ call.outputIsReplicated)
    (hpos : 0 < S.sizes.prod) :
    returningIndices S call =
      (List.range (S.sizeOf axis)).map (axisIndex S.names axis) := by
  have hname : axis ∈ S.names := h.sharded axis (haxis ▸ List.mem_singleton_self axis)
  have hzero : ∀ other, (other ∉ call.inShardedAxes ∨ other ∈ call.outputIsReplicated) ↔
      other ≠ axis := by
    intro other
    rw [haxis, List.mem_singleton]
    constructor
    · rintro (hne | hmem) rfl
      · exact hne rfl
      · exact hout hmem
    · exact .inl
  have hsizes : S.names.map S.sizeOf = S.sizes := map_lookup_zip S.names_nodup S.length_names
  refine returningIndices_pairwise.eq_of_mem_iff ?_ fun index ↦ ?_
  · rw [List.pairwise_map]
    exact List.pairwise_lt_range.imp fun hij ↦ axisIndex_lt hname hij
  · rw [mem_returningIndices h, List.mem_map]
    constructor
    · rintro ⟨hvalid, hothers⟩
      obtain ⟨i, size, hi, hsize, hlt⟩ := lookup_zip S.length_names hvalid hname
      have hlen : S.names.length = index.length := S.length_names.trans hvalid.length_eq.symm
      refine ⟨i, List.mem_range.mpr ?_, ?_⟩
      · rw [NamedSharding.sizeOf, NamedSharding.shape, hsize]
        exact hlt
      · refine Eq.trans (List.map_congr_left fun name hmem ↦ ?_)
          (map_lookup_zip S.names_nodup hlen)
        obtain ⟨coord, -, hcoord, -⟩ := lookup_zip S.length_names hvalid hmem
        rw [hcoord, Option.getD_some]
        by_cases hsame : name = axis
        · subst hsame
          rw [if_pos rfl, ← Option.some.inj (hi.symm.trans hcoord)]
        · obtain ⟨before, after, hsplit, -⟩ := List.lookup_eq_some_iff.mp hcoord
          have hc : (name, coord) ∈ S.names.zip index := by
            rw [hsplit]
            exact List.mem_append_right _ List.mem_cons_self
          rw [if_neg hsame]
          exact (hothers _ hc ((hzero name).mpr hsame)).symm
    · rintro ⟨i, hi, rfl⟩
      constructor
      · rw [← hsizes, axisIndex, List.forall₂_map_left_iff, List.forall₂_map_right_iff,
          List.forall₂_same]
        intro name hmem
        split_ifs with hsame
        · exact hsame ▸ List.mem_range.mp hi
        · have hmem' : S.sizeOf name ∈ S.sizes := by
            rw [← hsizes]
            exact List.mem_map_of_mem hmem
          exact pos_of_lt_prod hpos _ hmem'
      · intro c hc hother
        have hzip : S.names.zip (axisIndex S.names axis i) =
            S.names.map fun name ↦ (name, if name = axis then i else 0) := by
          have hmap := @List.zip_map' _ _ _ id (fun name ↦ if name = axis then i else 0) S.names
          rwa [List.map_id] at hmap
        rw [hzip] at hc
        obtain ⟨name, -, rfl⟩ := List.mem_map.mp hc
        exact if_neg ((hzero name).mp hother)

def argumentsAt (S : NamedSharding) (call : ShardedCall δ) (index : List ℕ) :
    List (String × Option (Nested δ)) := call.arguments (S.names.zip index)

theorem results_at (result : ℕ → List (String × Option (Nested δ)) → ρ) :
    (returningWorkers S call).map (fun worker ↦
        result worker (call.arguments (S.coordsOf worker))) =
      (returningIndices S call).map fun index ↦
        result (ravel S.sizes index) (argumentsAt S call index) := by
  rw [returningIndices, List.map_map]
  refine List.map_congr_left fun worker hworker ↦ ?_
  have hlt := List.mem_range.mp (List.mem_filter.mp hworker).1
  simp only [Function.comp_apply, ravel_unravel hlt]
  rfl

/-- `run_all_workers_sharded_data` calls the workers at the start of every free axis with
their slices and the others with `None`, or not at all. `get_results` has one result for
each combination of coordinates of the sharded axes along which the output is not
replicated, in layout order. -/
theorem runAllWorkersShardedData_results (h : WellFormed S call)
    (result : ℕ → List (String × Option (Nested δ)) → ρ) :
    ∃ future, runAllWorkersShardedData S S.sizes.prod (fun worker arguments ↦
        .ref (result worker arguments)) call = .ok future ∧
      future.calledWorkers = some ((List.range S.sizes.prod).filter fun worker ↦
        call.receives (S.coordsOf worker) || call.makeDummyCallsToFreeAxes) ∧
      (∀ called, future.calledWorkers = some called → future.futures = called.map fun worker ↦
        .ref (result worker (call.arguments (S.coordsOf worker)))) ∧
      (∃ indices : List (List ℕ), indices.Pairwise (· < ·) ∧
        (∀ index, index ∈ indices ↔ List.Forall₂ (· < ·) index S.sizes ∧
          ∀ c ∈ S.names.zip index, c.1 ∉ call.inShardedAxes ∨ c.1 ∈ call.outputIsReplicated →
            c.2 = 0) ∧
        getResults future = .ok (indices.map fun index ↦
          result (ravel S.sizes index) (argumentsAt S call index)) ∧
        getProxies future = indices.map fun index ↦
          .ref (result (ravel S.sizes index) (argumentsAt S call index))) ∧
      ∀ axis, call.inShardedAxes = [axis] → axis ∉ call.outputIsReplicated → 0 < S.sizes.prod →
        getResults future = .ok ((List.range (S.sizeOf axis)).map fun i ↦
          result (ravel S.sizes (axisIndex S.names axis i))
            (argumentsAt S call (axisIndex S.names axis i))) := by
  have hreturning : ∀ worker ∈ returningWorkers S call, worker ∈ calledWorkers S call :=
    fun worker ↦ mem_called_of_returning
  obtain ⟨hresults, hproxies⟩ := @getResults_eq ρ
    (fun worker ↦ result worker (call.arguments (S.coordsOf worker))) _ _ hreturning
  refine ⟨_, runAllWorkersShardedData_eq h _, rfl, ?_, ?_, ?_⟩
  · rintro called hcalled
    rw [← Option.some.inj hcalled]
  · refine ⟨returningIndices S call, returningIndices_pairwise, fun index ↦ mem_returningIndices h,
      ?_, ?_⟩
    · rw [hresults, results_at]
    · rw [hproxies]
      exact results_at fun worker arguments ↦ Future.ref (result worker arguments)
  · intro axis haxis hout hpos
    rw [hresults, results_at, returningIndices_one h haxis hout hpos, List.map_map]
    rfl

theorem squareNames_nodup : ["data_parallel", "tensor_parallel"].Nodup := by decide

theorem squareLayout_nodup : (List.range 4).Nodup := by decide

/-- Two data-parallel ranks of two tensor-parallel ranks each. -/
def squareSharding : NamedSharding where
  names := ["data_parallel", "tensor_parallel"]
  sizes := [2, 2]
  layout := List.range 4
  names_nodup := squareNames_nodup
  length_names := rfl
  length_layout := rfl
  layout_nodup := squareLayout_nodup

def shardCall (outputIsReplicated : List String) : ShardedCall ℕ where
  inShardedAxes := ["data_parallel"]
  replicateOnAxes := ["tensor_parallel"]
  outputIsReplicated := outputIsReplicated
  makeDummyCallsToFreeAxes := false
  commonKwargs := []
  kwargs := [("data", .list [.item 10, .item 20])]

theorem shardCall_wellFormed : WellFormed squareSharding (shardCall ["tensor_parallel"]) where
  layout_eq := rfl
  sharded := by decide
  replicated := by decide
  disjoint := by decide
  output := by decide
  shaped := by
    intro kwarg hkwarg
    rw [List.mem_singleton.mp hkwarg]
    refine ⟨rfl, fun value hvalue ↦ ?_⟩
    rcases List.mem_cons.mp hvalue with rfl | hvalue
    · rfl
    · rw [List.mem_singleton.mp hvalue]
      rfl
  common := by decide

theorem runAllWorkersShardedData_results_square :
    ∃ future, runAllWorkersShardedData squareSharding 4 (fun worker arguments ↦
        .ref (worker, arguments.length)) (shardCall ["tensor_parallel"]) = .ok future ∧
      getResults future = .ok [(0, 1), (2, 1)] := by
  obtain ⟨future, hfuture, -, -, -, hone⟩ := runAllWorkersShardedData_results shardCall_wellFormed
    fun worker arguments ↦ (worker, arguments.length)
  exact ⟨future, hfuture, hone "data_parallel" rfl (by decide) (by decide)⟩

/-- Along a sharded axis on which the output is said to be replicated, one result stands for
all. -/
theorem runAllWorkersShardedData_replicatedOutput :
    (runAllWorkersShardedData squareSharding 4 (fun worker arguments ↦
        .ref (worker, arguments.length))
      (shardCall ["tensor_parallel", "data_parallel"])).bind getResults = .ok [(0, 1)] := by
  rfl

end Results

end NemoRL.Distributed.WorkerGroups
