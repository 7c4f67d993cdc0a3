import Mathlib
import NemoRL.Data.MediaPrograms

namespace NemoRL.Data

open Foundations Foundations.Tensors

variable {δ ν : Type} [Zero ν]

namespace PackedTensor

/-- What holds of the offsets, the indices and the provenance of a value. -/
structure CsrInvariants (p : PackedTensor δ ν) : Prop where
  both : p.rowOffsets.isSome = p.segmentIndices.isSome
  start : ∀ o ∈ p.rowOffsets, o.head? = some 0
  sorted : ∀ o ∈ p.rowOffsets, ∀ i k, i ≤ k → k < o.length → o.getD i 0 ≤ o.getD k 0
  stop : ∀ o ∈ p.rowOffsets, ∀ l ∈ p.segmentIndices, o.getLast? = some l.length
  range : ∀ l ∈ p.segmentIndices, ∀ i ∈ l, i < p.tensors.length
  provenance : ∀ l ∈ p.segmentProvenance, l.length = p.tensors.length

theorem csrInvariants (p : PackedTensor δ ν) : CsrInvariants p := by
  rcases p.rows_cases with ⟨ho, hi, -⟩ | ⟨o, l, rows, ho, hi, hrows, hin⟩
  · refine ⟨by rw [ho, hi], ?_, ?_, ?_, ?_, p.length_provenance⟩ <;> simp [ho, hi]
  · refine ⟨by rw [ho, hi]; rfl, ?_, ?_, ?_, ?_, p.length_provenance⟩
    · intro o' ho'
      obtain rfl := Option.some.inj (ho.symm.trans ho')
      exact hrows.head?
    · intro o' ho' i k hik hk
      obtain rfl := Option.some.inj (ho.symm.trans ho')
      exact Interning.getD_le_getD_of_sorted hrows.sorted hik hk
    · intro o' ho' l' hl'
      obtain rfl := Option.some.inj (ho.symm.trans ho')
      obtain rfl := Option.some.inj (hi.symm.trans hl')
      exact hrows.getLast?
    · intro l' hl'
      obtain rfl := Option.some.inj (hi.symm.trans hl')
      exact hin

def SameProvenance (values : List (PackedTensor δ ν)) : Prop :=
  ∀ p ∈ values, ∀ q ∈ values, ∀ l ∈ p.segmentProvenance, ∀ l' ∈ q.segmentProvenance,
    ∀ (i j s : ℕ), l[i]? = some s → l'[j]? = some s → p.tensors[i]? = q.tensors[j]?

theorem sameProvenance_of_coherent {table : ℕ → Option (Tensor δ ν)} {next : ℕ}
    {values : List (PackedTensor δ ν)} (h : ∀ p ∈ values, Coherent table next p) :
    SameProvenance values := by
  intro p hp q hq l hl l' hl' i j s hi hj
  rw [← (h p hp l hl).1, ← (h q hq l' hl').1, List.getElem?_map, List.getElem?_map, hi, hj]

def rowMedia (p : PackedTensor δ ν) (row : ℕ) : List (Tensor δ ν) :=
  ((p.rowSegmentIndices row).map (p.tensors.getD · none)).reduceOption

/-- `q` has the rows of `p`: of the same media, in the same order, in each row, and as a whole. -/
structure SameRows (E : ElementTypes δ ν) (p q : PackedTensor δ ν) : Prop where
  len : q.len = p.len
  row : ∀ row < p.len,
    Covers E p.padToMaxShape p.dimToPack (p.rowMedia row) (q.rowMedia row)
  slice : ∀ idx p', p.slice idx = .ok p' → ∃ q', q.slice idx = .ok q' ∧ q'.len = p'.len ∧
    q'.asTensor E = p'.asTensor E ∧ CsrInvariants q'

end PackedTensor

namespace MediaState

open PackedTensor Media

variable {E : ElementTypes δ ν}

theorem kinds_concat (program : List (MediaCommand δ ν)) (c : MediaCommand δ ν) :
    MediaCommand.kinds (program ++ [c]) = (MediaCommand.kinds program).bind fun kinds ↦
      (c.kind kinds).map fun k ↦ kinds ++ [k] := by
  rw [MediaCommand.kinds, List.foldlM_append]
  cases h : program.foldlM (fun kinds (c : MediaCommand δ ν) ↦
      (c.kind kinds).map fun k ↦ kinds ++ [k]) [] with
  | none => rw [MediaCommand.kinds, h]; rfl
  | some kinds =>
    rw [MediaCommand.kinds, h]
    simp

theorem getElem?_view {s : MediaState δ ν} {i : ℕ} {m : Media (Tensor δ ν)}
    (h : (s.values.map view)[i]? = some m) : ∃ p, s.values[i]? = some p ∧ p.view = m := by
  rw [List.getElem?_map] at h
  exact Option.map_eq_some_iff.mp h

theorem sameRows_of_same {p q : PackedTensor δ ν} {table table' : ℕ → Option (Tensor δ ν)}
    {next next' : ℕ} (hp : PackedTensor.Coherent table next p)
    (hq : PackedTensor.Coherent table' next' q) (h : Same E .rows p.view q.view) :
    SameRows E p q where
  len := by
    have hlen := (h.rows rfl).length_eq
    rw [groups_view, groups_view, length_rows, length_rows] at hlen
    exact hlen.symm
  row := by
    intro row hrow
    have hrows := h.rows rfl
    rw [groups_view, groups_view] at hrows
    have hp : row < p.rows.length := by rwa [length_rows]
    have hq : row < q.rows.length := hrows.length_eq ▸ hp
    have hget := hrows.get hp hq
    simp only [List.get_eq_getElem, PackedTensor.rows, List.getElem_map, List.getElem_range] at hget
    exact hget
  slice := by
    intro idx p' hslice
    have hview := (p.slice_refines idx hp).view
    rw [hslice] at hview
    obtain ⟨n, hn, hsame⟩ := h.slice hview.symm
    have hview' := (q.slice_refines idx hq).view
    rw [hn] at hview'
    cases hslice' : q.slice idx with
    | error e =>
      rw [hslice'] at hview'
      cases hview'
    | ok q' =>
      rw [hslice'] at hview'
      obtain rfl := Except.ok.inj hview'
      have hlen := (hsame.rows rfl).length_eq
      rw [groups_view, groups_view, length_rows, length_rows] at hlen
      refine ⟨q', rfl, hlen.symm, ?_, q'.csrInvariants⟩
      rw [asTensor_view, asTensor_view]
      exact hsame.asTensor_eq

variable [DecidableEq δ]

theorem step_ok {s : MediaState δ ν} (hs : s.Coherent) {c : MediaCommand δ ν}
    {m : Media (Tensor δ ν)} (h : Media.eval E (s.values.map view) c = .ok m) :
    ∃ s', s.step E c = .ok s' ∧ s'.values.map view = s.values.map view ++ [m] := by
  obtain ⟨table, ht⟩ := hs
  have hview := (eval_steps (E := E) ht c).view
  rw [h] at hview
  cases heval : s.eval E c with
  | error e =>
    rw [heval] at hview
    cases hview
  | ok x =>
    rw [heval] at hview
    refine ⟨⟨s.values ++ [x.1], x.2⟩, by rw [step, heval]; rfl, ?_⟩
    rw [List.map_append, List.map_singleton]
    exact congrArg (s.values.map view ++ [·]) (Except.ok.inj hview)

theorem step_error {s : MediaState δ ν} (hs : s.Coherent) {c : MediaCommand δ ν} {e : MediaFailure}
    (h : Media.eval E (s.values.map view) c = .error e) : s.step E c = .error e := by
  obtain ⟨table, ht⟩ := hs
  have hview := (eval_steps (E := E) ht c).view
  rw [h] at hview
  cases heval : s.eval E c with
  | error e' =>
    rw [heval] at hview
    rw [step, heval, ← Except.error.inj hview]
    rfl
  | ok x =>
    rw [heval] at hview
    cases hview

theorem eval_of_step {s s' : MediaState δ ν} (hs : s.Coherent) {c : MediaCommand δ ν}
    (h : s.step E c = .ok s') : ∃ m, Media.eval E (s.values.map view) c = .ok m ∧
      s'.values.map view = s.values.map view ++ [m] := by
  cases heval : Media.eval E (s.values.map view) c with
  | error e =>
    rw [step_error hs heval] at h
    cases h
  | ok m =>
    obtain ⟨t, ht, hvalues⟩ := step_ok hs heval
    obtain rfl := Except.ok.inj (ht.symm.trans h)
    exact ⟨m, rfl, hvalues⟩

def RefusedRun (E : ElementTypes δ ν) (program : List (MediaCommand δ ν)) : Prop :=
  ∃ earlier args rest s, program = earlier ++ .flattenedConcat args :: rest ∧
    run E earlier = .ok s ∧ s.step E (.flattenedConcat args) = .error (.raised .oneLogicalRow) ∧
    (∃ i ∈ args, ∃ p, s.values[i]? = some p ∧ p.isCompact = true) ∧
    ∃ i ∈ args, ∃ p, s.values[i]? = some p ∧ p.len ≠ 1

/-- Where no leaf is enabled, the segments that a conversation is flattened from have one type. -/
def OneDtype (E : ElementTypes δ ν) (program : List (MediaCommand δ ν)) : Prop :=
  ∀ (n : ℕ) args s, program[n]? = some (.flattenedConcat args) →
    run E ((program.take n).map MediaCommand.flagOff) = .ok s →
      ∀ i ∈ args, ∀ p, s.values[i]? = some p → Uniform p.iterLogicalSegments.reduceOption

theorem run_append (program rest : List (MediaCommand δ ν)) :
    run E (program ++ rest) = (run E program).bind (rest.foldlM (step E)) := by
  rw [run, List.foldlM_append]
  rfl

theorem RefusedRun.error {program : List (MediaCommand δ ν)} (h : RefusedRun E program) :
    run E program = .error (.raised .oneLogicalRow) := by
  obtain ⟨earlier, args, rest, s, rfl, hs, herror, -⟩ := h
  rw [run_append, hs]
  show (List.foldlM (step E) s (.flattenedConcat args :: rest)) = _
  rw [List.foldlM_cons, herror]
  rfl

theorem run_same (program : List (MediaCommand δ ν)) {kinds : List Kind}
    (hkinds : MediaCommand.kinds program = some kinds) {off : MediaState δ ν}
    (hoff : run E (program.map MediaCommand.flagOff) = .ok off) (hdtype : OneDtype E program) :
    RefusedRun E program ∨ ∃ on, run E program = .ok on ∧
      SameValues E kinds (off.values.map view) (on.values.map view) := by
  induction program using List.reverseRecOn generalizing kinds off with
  | nil =>
    obtain rfl := Option.some.inj hkinds
    obtain rfl := Except.ok.inj hoff
    exact .inr ⟨{}, rfl, .nil⟩
  | append_singleton program c ih =>
    rw [kinds_concat] at hkinds
    obtain ⟨kinds₁, hkinds₁, hk⟩ := Option.bind_eq_some_iff.mp hkinds
    obtain ⟨k, hkind, rfl⟩ := Option.map_eq_some_iff.mp hk
    rw [List.map_append, List.map_singleton, run_concat] at hoff
    obtain ⟨off₁, hoff₁, hstep⟩ := Blocks.bind_eq_ok hoff
    have hdtype₁ : OneDtype E program := by
      intro n args s hget hs
      obtain ⟨hlt, -⟩ := List.getElem?_eq_some_iff.mp hget
      apply hdtype n args s
      · rw [List.getElem?_append_left hlt, hget]
      · rwa [List.take_append_of_le_length hlt.le]
    rcases ih hkinds₁ hoff₁ hdtype₁ with ⟨earlier, args, rest, s, hprogram, hs, herror, hboth⟩ |
      ⟨on₁, hon₁, hsame⟩
    · exact .inl ⟨earlier, args, rest ++ [c], s, by rw [hprogram]; simp, hs, herror, hboth⟩
    · have hcoherent := coherent_run hon₁
      obtain ⟨m, hm, hvalues⟩ := eval_of_step (coherent_run hoff₁) hstep
      have huniform : ∀ args, c = .flattenedConcat args → ∀ i ∈ args, ∀ m,
          (off₁.values.map view)[i]? = some m → Uniform m.segments.reduceOption := by
        rintro args rfl i hi m hm
        obtain ⟨p, hp, rfl⟩ := getElem?_view hm
        rw [← iterLogicalSegments_eq]
        refine hdtype program.length args off₁ List.getElem?_concat_length ?_ i hi p hp
        rwa [List.take_left]
      rcases hsame.eval hkind hm huniform with hrefused | ⟨n, hn, hnext⟩
      · obtain ⟨args, rfl, ⟨i, hi, n, hn, hcompact⟩, j, hj, n', hn', hlen⟩ := hrefused.refused
        obtain ⟨p, hp, rfl⟩ := getElem?_view hn
        obtain ⟨q, hq, rfl⟩ := getElem?_view hn'
        rw [isCompact_view] at hcompact
        rw [len_view] at hlen
        exact .inl ⟨program, args, [], on₁, rfl, hon₁, step_error hcoherent hrefused.eval,
          ⟨i, hi, p, hp, hcompact⟩, j, hj, q, hq, hlen⟩
      · obtain ⟨on, hon, hvalues'⟩ := step_ok hcoherent hn
        refine .inr ⟨on, ?_, ?_⟩
        · rw [run_concat, hon₁]
          exact hon
        · rw [hvalues, hvalues']
          exact hsame.concat hnext

/-- Enabling deduplication on some leaves changes nothing of what the values of a pipeline say:
either the pipeline is refused where it flattens values of both representations, or all of its
values are what they are without. -/
theorem deduplication_invisible (E : ElementTypes δ ν) (program : List (MediaCommand δ ν))
    {kinds : List Kind} (hkinds : MediaCommand.kinds program = some kinds) {off : MediaState δ ν}
    (hoff : run E (program.map MediaCommand.flagOff) = .ok off) (hdtype : OneDtype E program) :
    RefusedRun E program ∨ ∃ on, run E program = .ok on ∧
      on.values.length = off.values.length ∧ SameProvenance on.values ∧
      (∀ q ∈ on.values, CsrInvariants q) ∧
      ∀ (i : ℕ) (p q : PackedTensor δ ν), off.values[i]? = some p → on.values[i]? = some q →
        q.asTensor E = p.asTensor E ∧ (kinds[i]? = some .rows → SameRows E p q) := by
  rcases run_same program hkinds hoff hdtype with hrefused | ⟨on, hon, hsame⟩
  · exact .inl hrefused
  · obtain ⟨table, htable⟩ := coherent_run hoff
    obtain ⟨table', htable'⟩ := coherent_run hon
    have hlen := hsame.length
    rw [List.length_map, List.length_map] at hlen
    refine .inr ⟨on, hon, hlen, sameProvenance_of_coherent htable',
      fun q _ ↦ q.csrInvariants, ?_⟩
    intro i p q hp hq
    have hpv : (off.values.map view)[i]? = some p.view := by rw [List.getElem?_map, hp]; rfl
    have hqv : (on.values.map view)[i]? = some q.view := by rw [List.getElem?_map, hq]; rfl
    obtain ⟨hlt, -⟩ := List.getElem?_eq_some_iff.mp hpv
    have hk := List.getElem?_eq_getElem (hsame.lengthKinds ▸ hlt)
    have hkind := hsame.same i _ _ _ hk hpv hqv
    refine ⟨?_, ?_⟩
    · rw [asTensor_view, asTensor_view]
      exact hkind.asTensor_eq
    · intro hrows
      rw [Option.some.inj (hk.symm.trans hrows)] at hkind
      exact sameRows_of_same (htable p (List.mem_of_getElem? hp))
        (htable' q (List.mem_of_getElem? hq)) hkind

section Concrete

inductive DType
  | int64
  | float32
  | float64
  deriving DecidableEq

def roundBits (bits : ℕ) (v : ℤ) : ℤ :=
  let unit := 2 ^ (v.natAbs.log2 + 1 - bits)
  let q := v.natAbs / unit
  let r := v.natAbs % unit
  v.sign * ((if 2 * r > unit ∨ 2 * r = unit ∧ q % 2 = 1 then q + 1 else q) * unit)

def integers : ElementTypes DType ℤ where
  isFloatingPoint d := d ≠ .int64
  cast d e v :=
    if d = e then v
    else match e with
      | .int64 => v
      | .float32 => roundBits 24 v
      | .float64 => roundBits 53 v
  resultType l :=
    if .float64 ∈ l then .float64
    else if .int64 ∈ l ∧ .float32 ∉ l then .int64 else .float32
  cast_zero d e := by
    have hround : ∀ bits, roundBits bits 0 = 0 := fun bits ↦ Int.zero_mul _
    cases e <;> simp [hround]
  cast_self d v := if_pos rfl
  resultType_uniform d l hd h := by
    have hmem : ∀ e, e ∈ l ↔ e = d := fun e ↦ ⟨h e, fun heq ↦ heq ▸ hd⟩
    simp only [hmem]
    cases d <;> decide
  resultType_congr l l' h := by simp only [h]

def vector (dtype : DType) (v : ℤ) : Tensor DType ℤ where
  dtype := dtype
  shape := [1]
  entry index := if InBounds index [1] then v else 0
  outside _ h := if_neg h

def lastEntry (r : Except MediaFailure (MediaState DType ℤ)) : Option ℤ :=
  match r with
  | .error _ => none
  | .ok s => s.values.getLast?.bind fun p ↦
    match p.asTensor integers with
    | .ok (some t) => some (t.entry [0])
    | _ => none

def batchProgram : List (MediaCommand DType ℤ) :=
  [.leaf [some (vector .float32 1)] 0 false true, .leaf [some (vector .float32 2)] 0 false true,
    .mergeSegments [0, 1], .deepcopy 2, .flattenedConcat [2, 3], .slice 4 [-1, 0, 0]]

/-- Whether every value that is flattened at place `n` has segments of type `float32` only. -/
def flattensFloat32 (program : List (MediaCommand DType ℤ)) (n : ℕ) (args : List ℕ) : Bool :=
  match run integers ((program.take n).map MediaCommand.flagOff) with
  | .error _ => true
  | .ok s => args.all fun i ↦ s.values[i]?.all fun p ↦
    p.iterLogicalSegments.reduceOption.all (·.dtype = .float32)

theorem uniform_of_flattensFloat32 {program : List (MediaCommand DType ℤ)} {n : ℕ} {args : List ℕ}
    (h : flattensFloat32 program n args = true) {s : MediaState DType ℤ}
    (hs : run integers ((program.take n).map MediaCommand.flagOff) = .ok s) :
    ∀ i ∈ args, ∀ p, s.values[i]? = some p → Uniform p.iterLogicalSegments.reduceOption := by
  intro i hi p hp
  rw [flattensFloat32, hs] at h
  have hall := List.all_eq_true.mp h i hi
  rw [hp] at hall
  have hdtype : ∀ t ∈ p.iterLogicalSegments.reduceOption, t.dtype = .float32 :=
    fun t ht ↦ of_decide_eq_true (List.all_eq_true.mp hall t ht)
  intro t ht u hu
  rw [hdtype t ht, hdtype u hu]

theorem exists_of_isOk {ε α : Type} {r : Except ε α} (h : r.isOk = true) : ∃ a, r = .ok a := by
  cases r with
  | error e => cases h
  | ok a => exact ⟨a, rfl⟩

theorem deduplication_invisible_batch : ∃ off on, run integers
      (batchProgram.map MediaCommand.flagOff) = .ok off ∧
    run integers batchProgram = .ok on ∧ on.values.length = off.values.length ∧
      SameProvenance on.values ∧ (∀ q ∈ on.values, CsrInvariants q) ∧
      ∀ (i : ℕ) (p q : PackedTensor DType ℤ), off.values[i]? = some p → on.values[i]? = some q →
        q.asTensor integers = p.asTensor integers ∧
          ([Kind.rows, .rows, .conversation, .conversation, .rows, .rows][i]? = some .rows →
            SameRows integers p q) := by
  obtain ⟨off, hoff⟩ := exists_of_isOk
    (show (run integers (batchProgram.map MediaCommand.flagOff)).isOk = true by decide)
  have hdtype : OneDtype integers batchProgram := by
    intro n args s hget hs
    obtain ⟨hlt, -⟩ := List.getElem?_eq_some_iff.mp hget
    change n < 6 at hlt
    obtain rfl : n = 4 := by
      interval_cases n <;> first | rfl | cases hget
    obtain rfl : [2, 3] = args := MediaCommand.flattenedConcat.inj (Option.some.inj hget)
    exact uniform_of_flattensFloat32 (by decide) hs
  rcases deduplication_invisible integers batchProgram rfl hoff hdtype with hrefused |
    ⟨on, hon, hsame⟩
  · have hok : (run integers batchProgram).isOk = true := by decide
    rw [hrefused.error] at hok
    cases hok
  · exact ⟨off, on, hoff, hon, hsame⟩

def mixedProgram : List (MediaCommand DType ℤ) :=
  [.leaf [some (vector .float32 1)] 0 false true, .leaf [some (vector .float32 2)] 0 false false,
    .leaf [some (vector .float32 3)] 0 false false, .mergeSegments [0], .mergeSegments [1, 2],
    .flattenedConcat [3, 4]]

def promotedProgram : List (MediaCommand DType ℤ) :=
  [.leaf [some (vector .int64 16777217)] 0 false true,
    .leaf [some (vector .float32 1)] 0 false true, .mergeSegments [0, 1], .flattenedConcat [2],
    .leaf [some (vector .float64 1)] 0 false true, .concat [3, 4]]

/-- A batch with conversations of both representations is refused, and the segments of a
conversation are not rounded to a type of their own where they are kept apart. -/
theorem deduplication_visible :
    (MediaCommand.kinds mixedProgram).isSome ∧
      (run integers (mixedProgram.map MediaCommand.flagOff)).isOk = true ∧
      run integers mixedProgram = .error (.raised .oneLogicalRow) ∧
      (MediaCommand.kinds promotedProgram).isSome ∧
      lastEntry (run integers (promotedProgram.map MediaCommand.flagOff)) = some 16777216 ∧
      lastEntry (run integers promotedProgram) = some 16777217 := by
  refine ⟨rfl, by decide, rfl, rfl, by decide, by decide⟩

end Concrete

end MediaState

end NemoRL.Data
