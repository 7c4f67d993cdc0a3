import Mathlib
import NemoRL.Data.PackedTensor

namespace NemoRL.Data

open Foundations Foundations.Tensors Foundations.Interning

variable {δ ν : Type} [Zero ν]

/-- The rows of a media value: a segment for each, or the segments of each. -/
inductive MediaRows (τ : Type)
  | legacy (tensors : List (Option τ))
  | compact (rows : List (List (Option τ)))

/-- What a media value says, however its segments are stored. -/
structure Media (τ : Type) where
  dimToPack : ℤ
  padToMaxShape : Bool
  rows : MediaRows τ

namespace Media

section Operations

variable {τ : Type}

def ofTensors (dimToPack : ℤ) (padToMaxShape : Bool) (tensors : List (Option τ)) :
    Except MediaError (Media τ) :=
  if tensors = [] then .error .emptyTensors else .ok ⟨dimToPack, padToMaxShape, .legacy tensors⟩

variable (m : Media τ)

def isCompact : Bool :=
  match m.rows with
  | .legacy _ => false
  | .compact _ => true

def groups : List (List (Option τ)) :=
  match m.rows with
  | .legacy tensors => tensors.map ([·])
  | .compact rows => rows

/-- The segments of all rows. -/
def segments : List (Option τ) := m.groups.flatten

def len : ℕ := m.groups.length

def enableDeduplication : Media τ := { m with rows := .compact m.groups }

def map (f : Option τ → Option τ) : Media τ :=
  { m with rows := match m.rows with
    | .legacy tensors => .legacy (tensors.map f)
    | .compact rows => .compact (rows.map (List.map f)) }

/-- Row `row`, counted from the end where `row` is negative. -/
def takeRow {α : Type} (rows : List α) (row : ℤ) : Except MediaError α :=
  let row := if row < 0 then row + rows.length else row
  if 0 ≤ row then
    match rows[row.toNat]? with
    | some a => .ok a
    | none => .error (.rowIndex row)
  else .error (.rowIndex row)

def slice (idx : List ℤ) : Except MediaError (Media τ) :=
  match m.rows with
  | .legacy tensors => do
    let tensors ← idx.mapM (PackedTensor.item tensors)
    ofTensors m.dimToPack m.padToMaxShape tensors
  | .compact rows => do
    let rows ← idx.mapM (takeRow rows)
    .ok ⟨m.dimToPack, m.padToMaxShape, .compact rows⟩

def emptyRowsLike (numRows : ℤ) : Except MediaError (Media τ) :=
  if numRows < 0 then .error .numRows
  else if m.isCompact ∨ numRows = 0 then
    .ok ⟨m.dimToPack, m.padToMaxShape, .compact (List.replicate numRows.toNat [])⟩
  else .ok ⟨m.dimToPack, m.padToMaxShape, .legacy (List.replicate numRows.toNat none)⟩

variable (ms : List (Media τ))

def commonSettings : Except MediaError (ℤ × Bool) :=
  match (ms.map (·.dimToPack)).dedup with
  | [dimToPack] =>
    match (ms.map (·.padToMaxShape)).dedup with
    | [padToMaxShape] => .ok (dimToPack, padToMaxShape)
    | _ => .error .padToMaxShape
  | _ => .error .dimToPack

def concat : Except MediaError (Media τ) := do
  let (dimToPack, padToMaxShape) ← commonSettings ms
  if ms.any isCompact then .ok ⟨dimToPack, padToMaxShape, .compact (ms.flatMap groups)⟩
  else ofTensors dimToPack padToMaxShape (ms.flatMap segments)

/-- The segments of all values, in one row unless all are in the legacy representation. -/
def mergeSegments : Except MediaError (Media τ) :=
  if ms.any isCompact then do
    let (dimToPack, padToMaxShape) ← commonSettings ms
    .ok ⟨dimToPack, padToMaxShape, .compact [ms.flatMap segments]⟩
  else concat ms

end Operations

section Tensors

variable (E : ElementTypes δ ν)

def asTensor (m : Media (Tensor δ ν)) : Except MediaError (Option (Tensor δ ν)) :=
  if m.segments.reduceOption.length = 0 then .ok none
  else match pack E m.padToMaxShape m.dimToPack m.segments.reduceOption with
    | .ok tensor => .ok (some tensor)
    | .error e => .error (.pack e)

def flattenedConcat (ms : List (Media (Tensor δ ν))) : Except MediaError (Media (Tensor δ ν)) := do
  let (dimToPack, padToMaxShape) ← commonSettings ms
  if ms.any isCompact then
    if ms.all (·.len = 1) then concat ms else .error .oneLogicalRow
  else
    let tensors ← ms.mapM (asTensor E)
    ofTensors dimToPack padToMaxShape tensors

end Tensors

end Media

namespace PackedTensor

section Checks

variable {tensors : List (Option (Tensor δ ν))} {rowOffsets segmentIndices : List ℕ}
variable {segmentProvenance : Option (List ℕ)} {rows : List (List ℕ)}

theorem provenanceError_eq_none : provenanceError tensors segmentProvenance = none ↔
    ∀ l ∈ segmentProvenance, l.length = tensors.length := by
  cases segmentProvenance with
  | none => simp [provenanceError]
  | some l => simp [provenanceError]

theorem rowError_compressed (h : Compressed rowOffsets segmentIndices rows)
    (hrange : ∀ i ∈ segmentIndices, i < tensors.length) :
    rowError tensors (some rowOffsets) (some segmentIndices) = none := by
  have hsorted : ¬ ∃ x ∈ rowOffsets.zip rowOffsets.tail, x.1 > x.2 := by
    rintro ⟨x, hx, hgt⟩
    exact absurd (h.sorted x hx) (by omega)
  have hin : ¬ ∃ i ∈ segmentIndices, i ≥ tensors.length := by
    rintro ⟨i, hi, hge⟩
    exact absurd (hrange i hi) (by omega)
  rw [rowError, if_neg (not_not.mpr h.head?), if_neg hsorted, if_neg (not_not.mpr h.getLast?),
    if_neg hin]

theorem initError_legacy (hne : tensors ≠ [])
    (hprovenance : ∀ l ∈ segmentProvenance, l.length = tensors.length) :
    initError tensors none none segmentProvenance = none := by
  rw [initError, if_neg fun h ↦ hne h.1, provenanceError_eq_none.mpr hprovenance]
  rfl

theorem initError_compressed (h : Compressed rowOffsets segmentIndices rows)
    (hrange : ∀ i ∈ segmentIndices, i < tensors.length)
    (hprovenance : ∀ l ∈ segmentProvenance, l.length = tensors.length) :
    initError tensors (some rowOffsets) (some segmentIndices) segmentProvenance = none := by
  have hoffsets : ¬ (tensors = [] ∧ some rowOffsets = none) := fun h ↦ Option.some_ne_none _ h.2
  rw [initError, if_neg hoffsets, rowError_compressed h hrange,
    provenanceError_eq_none.mpr hprovenance]
  rfl

end Checks

section Rows

variable (p : PackedTensor δ ν)

def rows : List (List (Option (Tensor δ ν))) :=
  (List.range p.len).map fun row ↦ (p.rowSegmentIndices row).map (p.tensors.getD · none)

def view : Media (Tensor δ ν) where
  dimToPack := p.dimToPack
  padToMaxShape := p.padToMaxShape
  rows := if p.isCompact then .compact p.rows else .legacy p.tensors

theorem view_of_compact (h : p.isCompact = true) :
    p.view = ⟨p.dimToPack, p.padToMaxShape, .compact p.rows⟩ := by
  rw [view, if_pos h]

theorem view_of_legacy (h : p.isCompact = false) :
    p.view = ⟨p.dimToPack, p.padToMaxShape, .legacy p.tensors⟩ := by
  rw [view, h]
  rfl

theorem length_provenance : ∀ l ∈ p.segmentProvenance, l.length = p.tensors.length := by
  have hvalid := p.valid
  rw [initError] at hvalid
  split at hvalid
  · cases hvalid
  · exact provenanceError_eq_none.mp (Option.or_eq_none_iff.mp hvalid).2

/-- The two ways in which a value that passes the checks says what is in its rows. -/
theorem rows_cases : (p.rowOffsets = none ∧ p.segmentIndices = none ∧ p.tensors ≠ []) ∨
    ∃ rowOffsets segmentIndices rows, p.rowOffsets = some rowOffsets ∧
      p.segmentIndices = some segmentIndices ∧ Compressed rowOffsets segmentIndices rows ∧
        ∀ i ∈ segmentIndices, i < p.tensors.length := by
  have hvalid := p.valid
  rw [initError] at hvalid
  split at hvalid
  · cases hvalid
  · rename_i hne
    have hrow := (Option.or_eq_none_iff.mp hvalid).1
    cases ho : p.rowOffsets with
    | none =>
      cases hi : p.segmentIndices with
      | none => exact .inl ⟨rfl, rfl, fun h ↦ hne ⟨h, ho⟩⟩
      | some segmentIndices =>
        rw [ho, hi] at hrow
        cases hrow
    | some rowOffsets =>
      cases hi : p.segmentIndices with
      | none =>
        rw [ho, hi] at hrow
        cases hrow
      | some segmentIndices =>
        rw [ho, hi, rowError] at hrow
        split_ifs at hrow with hhead hsorted hlast hrange
        refine .inr ⟨rowOffsets, segmentIndices, _, rfl, rfl,
          compressed_of_checks (not_not.mp hhead) ?_ (not_not.mp hlast), ?_⟩
        · intro x hx
          by_contra hgt
          exact hsorted ⟨x, hx, by omega⟩
        · intro i hi
          by_contra hge
          exact hrange ⟨i, hi, by omega⟩

theorem rows_of_none (h : p.rowOffsets = none) : p.rows = p.tensors.map ([·]) := by
  rw [rows, len, h]
  apply List.ext_getElem
  · simp
  · intro i hi hi'
    simp only [List.length_map, List.length_range] at hi
    simp [rowSegmentIndices, h, List.getElem?_eq_getElem hi]

theorem rows_of_compressed {rowOffsets segmentIndices : List ℕ} {rows : List (List ℕ)}
    (ho : p.rowOffsets = some rowOffsets) (hi : p.segmentIndices = some segmentIndices)
    (h : Compressed rowOffsets segmentIndices rows) :
    p.rows = rows.map (List.map (p.tensors.getD · none)) := by
  have hlen := h.length
  rw [PackedTensor.rows, len, ho]
  apply List.ext_getElem
  · simp only [List.length_map, List.length_range]
    omega
  · intro k hk hk'
    rw [List.length_map] at hk'
    rw [List.getElem_map, List.getElem_map, List.getElem_range, rowSegmentIndices, ho, hi]
    simp only
    rw [h.slice (List.getElem?_eq_getElem hk')]

theorem length_rows : p.rows.length = p.len := by
  rw [rows, List.length_map, List.length_range]

theorem len_view : p.view.len = p.len := by
  rw [Media.len, Media.groups, view]
  cases hc : p.isCompact with
  | true => exact p.length_rows
  | false =>
    obtain ⟨-, ho⟩ := Bool.or_eq_false_iff.mp hc
    rw [len, Option.isNone_iff_eq_none.mp (Option.isSome_eq_false_iff.mp ho)]
    simp

theorem isCompact_view : p.view.isCompact = p.isCompact := by
  rw [Media.isCompact, view]
  cases p.isCompact <;> rfl

theorem rowOffsets_of_legacy (h : p.isCompact = false) :
    p.rowOffsets = none ∧ p.segmentProvenance = none := by
  obtain ⟨hd, ho⟩ := Bool.or_eq_false_iff.mp h
  exact ⟨Option.isNone_iff_eq_none.mp (Option.isSome_eq_false_iff.mp ho),
    Option.isNone_iff_eq_none.mp (Option.isSome_eq_false_iff.mp hd)⟩

theorem groups_view : p.view.groups = p.rows := by
  rw [Media.groups, view]
  cases hc : p.isCompact with
  | true => rfl
  | false => exact (p.rows_of_none (p.rowOffsets_of_legacy hc).1).symm

end Rows

section Init

variable {tensors : List (Option (Tensor δ ν))} {rowOffsets segmentIndices : List ℕ}
variable {segmentProvenance : Option (List ℕ)} {rows : List (List ℕ)}

theorem init_eq {rowOffsets segmentIndices : Option (List ℕ)} (dimToPack : ℤ)
    (padToMaxShape : Bool)
    (h : initError tensors rowOffsets segmentIndices segmentProvenance = none) :
    init tensors dimToPack padToMaxShape rowOffsets segmentIndices segmentProvenance =
      .ok ⟨tensors, dimToPack, padToMaxShape, rowOffsets, segmentIndices, segmentProvenance, h⟩ := by
  unfold init
  split
  · rfl
  · rename_i e he
    rw [h] at he
    cases he

theorem init_self (p : PackedTensor δ ν) : init p.tensors p.dimToPack p.padToMaxShape p.rowOffsets
    p.segmentIndices p.segmentProvenance = .ok p := init_eq _ _ p.valid

theorem init_compressed (tensors : List (Option (Tensor δ ν)))
    (segmentProvenance : Option (List ℕ)) (dimToPack : ℤ) (padToMaxShape : Bool)
    (h : Compressed rowOffsets segmentIndices rows)
    (hrange : ∀ i ∈ segmentIndices, i < tensors.length)
    (hprovenance : ∀ l ∈ segmentProvenance, l.length = tensors.length) :
    ∃ p, init tensors dimToPack padToMaxShape (some rowOffsets) (some segmentIndices)
        segmentProvenance = .ok p ∧
      p.tensors = tensors ∧ p.segmentIndices = some segmentIndices ∧
        p.segmentProvenance = segmentProvenance ∧ p.view =
          ⟨dimToPack, padToMaxShape, .compact (rows.map (List.map (tensors.getD · none)))⟩ := by
  refine ⟨_, init_eq _ _ (initError_compressed h hrange hprovenance), rfl, rfl, rfl, ?_⟩
  rw [view, isCompact, Option.isSome_some, Bool.or_true, if_pos rfl,
    rows_of_compressed _ rfl rfl h]

theorem init_legacy (dimToPack : ℤ) (padToMaxShape : Bool) (hne : tensors ≠ []) :
    ∃ p, init tensors dimToPack padToMaxShape none none none = .ok p ∧
      p.segmentProvenance = none ∧ p.view = ⟨dimToPack, padToMaxShape, .legacy tensors⟩ :=
  ⟨_, init_eq _ _ (initError_legacy hne (by simp)), rfl, rfl⟩

theorem init_nil (dimToPack : ℤ) (padToMaxShape : Bool) :
    (init [] dimToPack padToMaxShape none none none : Except MediaError (PackedTensor δ ν)) =
      .error .emptyTensors := rfl

end Init

section Refinement

/-- The provenance of a value says what its segments are, and is older than `next`. -/
def Coherent (table : ℕ → Option (Tensor δ ν)) (next : ℕ) (p : PackedTensor δ ν) : Prop :=
  ∀ l ∈ p.segmentProvenance, l.map table = p.tensors ∧ ∀ q ∈ l, q < next

/-- The two tables agree on the provenance older than `next`. -/
def Agree (next : ℕ) (table table' : ℕ → Option (Tensor δ ν)) : Prop :=
  ∀ q < next, table' q = table q

/-- An operation says what it is meant to, and only adds to what provenance says. -/
structure Refines (table : ℕ → Option (Tensor δ ν)) (next : ℕ)
    (r : Except MediaError (PackedTensor δ ν × ℕ)) (m : Except MediaError (Media (Tensor δ ν))) :
    Prop where
  view : r.map (fun x ↦ x.1.view) = m
  coherent : ∀ x, r = .ok x → next ≤ x.2 ∧ ∃ table', Agree next table table' ∧
    Coherent table' x.2 x.1

variable {table table' : ℕ → Option (Tensor δ ν)} {next next' : ℕ} {p : PackedTensor δ ν}

theorem Agree.refl (next : ℕ) (table : ℕ → Option (Tensor δ ν)) : Agree next table table :=
  fun _ _ ↦ rfl

theorem Coherent.mono (h : Coherent table next p) (hagree : Agree next table table')
    (hle : next ≤ next') : Coherent table' next' p := by
  intro l hl
  obtain ⟨hmap, hlt⟩ := h l hl
  refine ⟨?_, fun q hq ↦ (hlt q hq).trans_le hle⟩
  rw [← hmap]
  exact List.map_congr_left fun q hq ↦ hagree q (hlt q hq)

theorem coherent_of_none (h : p.segmentProvenance = none) : Coherent table next p := by
  intro l hl
  rw [h] at hl
  cases hl

theorem Refines.ok {m : Media (Tensor δ ν)} (hview : p.view = m) (hle : next ≤ next')
    (hagree : Agree next table table') (hcoherent : Coherent table' next' p) :
    Refines table next (.ok (p, next')) (.ok m) := by
  refine ⟨congrArg Except.ok hview, ?_⟩
  intro x hx
  obtain rfl := Except.ok.inj hx
  exact ⟨hle, table', hagree, hcoherent⟩

theorem Refines.error (e : MediaError) : Refines table next (.error e) (.error e) :=
  ⟨rfl, fun _ hx ↦ nomatch hx⟩

/-- A value in the legacy representation is made of its tensors. -/
theorem refines_ofTensors (table : ℕ → Option (Tensor δ ν)) (next : ℕ)
    (tensors : List (Option (Tensor δ ν))) (dimToPack : ℤ) (padToMaxShape : Bool) :
    Refines table next ((init tensors dimToPack padToMaxShape none none none).map (·, next))
      (Media.ofTensors dimToPack padToMaxShape tensors) := by
  by_cases hne : tensors = []
  · rw [Media.ofTensors, if_pos hne, hne, init_nil]
    exact .error _
  · obtain ⟨p, hp, hprovenance, hview⟩ := init_legacy dimToPack padToMaxShape hne
    rw [Media.ofTensors, if_neg hne, hp]
    exact .ok hview le_rfl (.refl _ _) (coherent_of_none hprovenance)

/-- The table after as many fresh entries as there are tensors. -/
theorem exists_fresh (table : ℕ → Option (Tensor δ ν)) (next : ℕ)
    (tensors : List (Option (Tensor δ ν))) : ∃ table', Agree next table table' ∧
      (List.range' next tensors.length).map table' = tensors := by
  refine ⟨fun q ↦ if q < next then table q else tensors.getD (q - next) none, ?_, ?_⟩
  · intro q hq
    exact if_pos hq
  · apply List.ext_getElem
    · rw [List.length_map, List.length_range']
    · intro i hi hi'
      rw [List.getElem_map, List.getElem_range', if_neg (by omega),
        show next + 1 * i - next = i by omega, List.getD_eq_getElem _ _ hi']

theorem coherent_fresh {tensors : List (Option (Tensor δ ν))}
    (hmap : (List.range' next tensors.length).map table = tensors) (htensors : p.tensors = tensors)
    (hprovenance : ∀ l ∈ p.segmentProvenance, l = List.range' next tensors.length) :
    Coherent table (next + tensors.length) p := by
  intro l hl
  obtain rfl := hprovenance l hl
  refine ⟨by rw [hmap, htensors], ?_⟩
  intro q hq
  exact (List.mem_range'_1.mp hq).2

theorem enableDeduplication_refines (p : PackedTensor δ ν) (h : Coherent table next p) :
    Refines table next (p.enableDeduplication next) (.ok p.view.enableDeduplication) := by
  have hview : p.view.enableDeduplication = ⟨p.dimToPack, p.padToMaxShape, .compact p.rows⟩ := by
    rw [Media.enableDeduplication, groups_view]
    rfl
  rw [hview, enableDeduplication]
  cases hsome : p.segmentProvenance with
  | some l =>
    refine .ok ?_ le_rfl (.refl _ _) h
    rw [view, isCompact, deduplicationEnabled, hsome]
    rfl
  | none =>
    have hvalid : initError p.tensors p.rowOffsets p.segmentIndices
        (some (List.range' next p.tensors.length)) = none := by
      have hrange : ∀ l ∈ some (List.range' next p.tensors.length), l.length = p.tensors.length := by
        intro l hl
        rw [← Option.some.inj hl, List.length_range']
      rcases p.rows_cases with ⟨ho, hi, hne⟩ | ⟨o, i, rows, ho, hi, hrows, hin⟩
      · rw [ho, hi]
        exact initError_legacy hne hrange
      · rw [ho, hi]
        exact initError_compressed hrows hin hrange
    obtain ⟨table', hagree, hfresh⟩ := exists_fresh table next p.tensors
    simp only [init_eq _ _ hvalid, Except.map]
    refine .ok ?_ (Nat.le_add_right _ _) hagree (coherent_fresh hfresh rfl ?_)
    · rfl
    · intro l hl
      exact (Option.some.inj hl).symm

theorem deepcopy_eq (p : PackedTensor δ ν) : p.deepcopy = .ok p := by
  rw [deepcopy]
  split
  · rename_i h
    obtain ⟨ho, hd⟩ := h
    have hprovenance : p.segmentProvenance = none := by
      rw [deduplicationEnabled, Bool.not_eq_true, Option.isSome_eq_false_iff] at hd
      exact Option.isNone_iff_eq_none.mp hd
    have hindices : p.segmentIndices = none := by
      rcases p.rows_cases with ⟨-, hi, -⟩ | ⟨_, _, _, ho', -⟩
      · exact hi
      · rw [ho] at ho'
        cases ho'
    have hself := init_self p
    rwa [ho, hindices, hprovenance] at hself
  · exact init_self p

theorem iterLogicalSegments_eq (p : PackedTensor δ ν) :
    p.iterLogicalSegments = p.view.segments := by
  rw [Media.segments, groups_view, iterLogicalSegments]
  rcases p.rows_cases with ⟨ho, hi, -⟩ | ⟨o, i, rows, ho, hi, hrows, -⟩
  · rw [hi, p.rows_of_none ho, ← List.flatMap_def]
    exact (List.flatMap_singleton' p.tensors).symm
  · rw [hi, p.rows_of_compressed ho hi hrows, hrows.indices]
    exact List.map_flatten

theorem asTensor_view (E : ElementTypes δ ν) (p : PackedTensor δ ν) :
    p.asTensor E = p.view.asTensor E := by
  rw [asTensor, Media.asTensor, iterLogicalSegments_eq]
  rfl

theorem getD_map_none {f : Option (Tensor δ ν) → Option (Tensor δ ν)} (hf : f none = none)
    (tensors : List (Option (Tensor δ ν))) (i : ℕ) :
    (tensors.map f).getD i none = f (tensors.getD i none) := by
  rw [List.getD_eq_getElem?_getD, List.getD_eq_getElem?_getD, List.getElem?_map]
  cases tensors[i]? with
  | none => exact hf.symm
  | some t => rfl

/-- The segments of a value changed one by one. -/
theorem init_map {f : Option (Tensor δ ν) → Option (Tensor δ ν)} (hf : f none = none)
    (p : PackedTensor δ ν) (segmentProvenance : Option (List ℕ))
    (hsome : segmentProvenance.isSome = p.segmentProvenance.isSome)
    (hprovenance : ∀ l ∈ segmentProvenance, l.length = p.tensors.length) :
    ∃ q, init (p.tensors.map f) p.dimToPack p.padToMaxShape p.rowOffsets p.segmentIndices
        segmentProvenance = .ok q ∧ q.tensors = p.tensors.map f ∧
      q.segmentProvenance = segmentProvenance ∧ q.view = p.view.map f := by
  have hvalid : initError (p.tensors.map f) p.rowOffsets p.segmentIndices segmentProvenance =
      none := by
    have hlen : ∀ l ∈ segmentProvenance, l.length = (p.tensors.map f).length := by
      intro l hl
      rw [List.length_map, hprovenance l hl]
    rcases p.rows_cases with ⟨ho, hi, hne⟩ | ⟨o, i, rows, ho, hi, hrows, hin⟩
    · rw [ho, hi]
      exact initError_legacy (by simpa using hne) hlen
    · rw [ho, hi]
      exact initError_compressed hrows (by simpa using hin) hlen
  refine ⟨_, init_eq _ _ hvalid, rfl, rfl, ?_⟩
  have hrows : ∀ row, (p.rowSegmentIndices row).map ((p.tensors.map f).getD · none) =
      ((p.rowSegmentIndices row).map (p.tensors.getD · none)).map f := by
    intro row
    rw [List.map_map]
    exact List.map_congr_left fun i _ ↦ getD_map_none hf p.tensors i
  have hlen : (PackedTensor.mk _ p.dimToPack p.padToMaxShape _ _ _ hvalid).len = p.len := by
    rw [len, len]
    simp only [List.length_map]
  cases hc : p.isCompact with
  | true =>
    rw [p.view_of_compact hc, view_of_compact]
    · rw [PackedTensor.rows, hlen]
      show Media.mk _ _ (.compact _) = Media.mk _ _ (.compact (p.rows.map _))
      rw [PackedTensor.rows, List.map_map]
      congr 2
      exact List.map_congr_left fun row _ ↦ hrows row
    · rw [isCompact, deduplicationEnabled, hsome]
      exact hc
  | false =>
    rw [p.view_of_legacy hc, view_of_legacy]
    · rfl
    · rw [isCompact, deduplicationEnabled, hsome]
      exact hc

theorem toDtype_refines [DecidableEq δ] (E : ElementTypes δ ν) (dtype : δ) (p : PackedTensor δ ν)
    (h : Coherent table next p) :
    Refines table next (p.toDtype E dtype next) (.ok (p.view.map (converted E dtype))) := by
  rw [toDtype]
  split
  · obtain ⟨table', hagree, hfresh⟩ := exists_fresh table next (p.tensors.map (converted E dtype))
    rw [List.length_map] at hfresh
    obtain ⟨q, hq, htensors, hprovenance, hview⟩ := init_map (f := converted E dtype) rfl p
      (p.segmentProvenance.map fun _ ↦ List.range' next p.tensors.length)
      (by rw [Option.isSome_map]) (by simp)
    simp only [hq, Except.map]
    refine .ok hview (Nat.le_add_right _ _) hagree ?_
    have hlen : p.tensors.length = (p.tensors.map (converted E dtype)).length := by
      rw [List.length_map]
    rw [hlen]
    refine coherent_fresh (by rwa [List.length_map]) htensors ?_
    intro l hl
    rw [hprovenance, Option.mem_map] at hl
    obtain ⟨_, -, rfl⟩ := hl
    rw [List.length_map]
  · rename_i hrequires
    have hsame : p.tensors.map (converted E dtype) = p.tensors := by
      have hid : ∀ item ∈ p.tensors, converted E dtype item = item := by
        intro item hitem
        cases item with
        | none => rfl
        | some t =>
          rw [converted, Option.map_some]
          split
          · rename_i hfloat
            have hdtype : t.dtype = dtype := by
              by_contra hne
              apply hrequires
              rw [requiresConversion, List.any_eq_true]
              exact ⟨some t, hitem, by simpa [hfloat] using hne⟩
            rw [← hdtype, convert_self]
          · rfl
      exact (List.map_congr_left hid).trans (List.map_id' _)
    have hview : p.view = p.view.map (converted E dtype) := by
      obtain ⟨q, hq, -, -, hview⟩ := init_map (f := converted E dtype) rfl p
        p.segmentProvenance rfl p.length_provenance
      rw [hsame, init_self] at hq
      rw [← hview, ← Except.ok.inj hq]
    rw [init_self]
    exact .ok hview le_rfl (.refl _ _) h

theorem emptyRowsLike_refines (p : PackedTensor δ ν) (numRows : ℤ) :
    Refines table next ((p.emptyRowsLike numRows).map (·, next))
      (p.view.emptyRowsLike numRows) := by
  have hnil : ∀ n, Compressed (List.replicate (n + 1) 0) [] (List.replicate n []) := by
    intro n
    induction n with
    | zero => exact compressed_nil
    | succ n ih =>
      have hnext : Compressed (List.replicate (n + 1) 0 ++ [0]) [] (List.replicate n [] ++ [[]]) :=
        ih.concat []
      rwa [← List.replicate_succ', ← List.replicate_succ'] at hnext
  rw [emptyRowsLike, Media.emptyRowsLike, isCompact_view]
  by_cases hneg : numRows < 0
  · rw [if_pos hneg, if_pos hneg]
    exact .error _
  · rw [if_neg hneg, if_neg hneg]
    by_cases hc : p.isCompact = true
    · obtain ⟨q, hq, htensors, -, hprovenance, hview⟩ := init_compressed
        ([] : List (Option (Tensor δ ν))) (some []) p.dimToPack p.padToMaxShape (hnil numRows.toNat)
        (fun _ h ↦ nomatch h) (by simp)
      rw [if_pos hc, if_pos (.inl hc), hq]
      rw [List.map_replicate] at hview
      refine .ok hview le_rfl (.refl _ _) ?_
      intro l hl
      rw [hprovenance] at hl
      obtain rfl := Option.some.inj hl
      exact ⟨htensors.symm, fun q hq ↦ nomatch hq⟩
    · rw [if_neg hc]
      by_cases hzero : numRows = 0
      · obtain ⟨q, hq, htensors, -, hprovenance, hview⟩ := init_compressed
          ([] : List (Option (Tensor δ ν))) none p.dimToPack p.padToMaxShape compressed_nil
          (fun _ h ↦ nomatch h) (by simp)
        rw [if_pos hzero, if_pos (.inr hzero), hq, hzero]
        exact .ok hview le_rfl (.refl _ _) (coherent_of_none hprovenance)
      · have hne : List.replicate numRows.toNat (none : Option (Tensor δ ν)) ≠ [] := by
          rw [Ne, List.replicate_eq_nil_iff]
          omega
        have hrefines := refines_ofTensors table next
          (List.replicate numRows.toNat (none : Option (Tensor δ ν))) p.dimToPack p.padToMaxShape
        rw [Media.ofTensors, if_neg hne] at hrefines
        rw [if_neg hzero, if_neg (by rintro (h | h) <;> contradiction)]
        exact hrefines

end Refinement

end PackedTensor

end NemoRL.Data
