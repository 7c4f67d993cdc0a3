import Mathlib
import NemoRL.Data.MediaRows

namespace NemoRL.Data.PackedTensor

open Foundations Foundations.Tensors Foundations.Interning

variable {δ ν : Type} [Zero ν]
variable {table : ℕ → Option (Tensor δ ν)} {next : ℕ}

/-- A loop that takes a step for each entry, where the entries are looked up one by one. -/
theorem foldlM_mapM {α β σ ε : Type} {f : σ → α → Except ε σ} {g : α → Except ε β}
    {Inv : σ → List β → Prop}
    (hok : ∀ s bs a b, Inv s bs → g a = .ok b → ∃ s', f s a = .ok s' ∧ Inv s' (bs ++ [b]))
    (herror : ∀ s a e, g a = .error e → f s a = .error e) (l : List α) {s : σ} {bs : List β}
    (h : Inv s bs) : (∃ e, l.mapM g = .error e ∧ l.foldlM f s = .error e) ∨
      ∃ cs s', l.mapM g = .ok cs ∧ l.foldlM f s = .ok s' ∧ Inv s' (bs ++ cs) := by
  induction l generalizing s bs with
  | nil => exact .inr ⟨[], s, rfl, rfl, by rwa [List.append_nil]⟩
  | cons a l ih =>
    rw [List.mapM_cons, List.foldlM_cons]
    cases hg : g a with
    | error e =>
      rw [herror s a e hg]
      exact .inl ⟨e, rfl, rfl⟩
    | ok b =>
      obtain ⟨s', hs', hinv⟩ := hok s bs a b h hg
      rw [hs']
      rcases ih hinv with ⟨e, hmap, hfold⟩ | ⟨cs, t, hmap, hfold, hinv'⟩
      · refine .inl ⟨e, ?_, hfold⟩
        simp only [hmap]
        rfl
      · refine .inr ⟨b :: cs, t, ?_, hfold, ?_⟩
        · simp only [hmap]
          rfl
        · rwa [List.append_assoc] at hinv'

section Slice

variable (p : PackedTensor δ ν)

theorem foldl_sliceSegment (idx : List ℕ) {s : Sliced δ ν}
    (hsound : s.segments.Sound p.segment) :
    (idx.foldl p.sliceSegment s).rowOffsets = s.rowOffsets ∧
      (idx.foldl p.sliceSegment s).segments.Sound p.segment ∧
      s.segments.entries <+: (idx.foldl p.sliceSegment s).segments.entries ∧
      (∀ a ∈ (idx.foldl p.sliceSegment s).segments.entries,
        a ∈ s.segments.entries ∨ ∃ i ∈ idx, a = p.segment i) ∧
      ∃ row, (idx.foldl p.sliceSegment s).segmentIndices = s.segmentIndices ++ row ∧
        row.map ((idx.foldl p.sliceSegment s).segments.entries[·]?) =
          (idx.map p.segment).map some := by
  induction idx generalizing s with
  | nil =>
    exact ⟨rfl, hsound, List.prefix_refl _, fun a ha ↦ .inl ha, [], (List.append_nil _).symm, rfl⟩
  | cons i idx ih =>
    have hextends := Table.extends_intern i hsound
    obtain ⟨hoffsets, hsound', hle, hmem, row, hrow, hget⟩ :=
      ih (s := p.sliceSegment s i) hextends.sound
    rw [List.foldl_cons]
    refine ⟨hoffsets, hsound', hextends.entries.trans hle, ?_,
      (s.segments.intern i (p.segment i)).2 :: row, ?_, ?_⟩
    · intro a ha
      rcases hmem a ha with ha | ⟨j, hj, rfl⟩
      · rcases hextends.mem a ha with ha | rfl
        · exact .inl ha
        · exact .inr ⟨i, List.mem_cons_self .., rfl⟩
      · exact .inr ⟨j, List.mem_cons_of_mem _ hj, rfl⟩
    · rw [hrow]
      show s.segmentIndices ++ [_] ++ row = _
      rw [List.append_assoc]
      rfl
    · have hposition := map_getElem?_of_isPrefix hle
        (show [(s.segments.intern i (p.segment i)).2].map _ = [p.segment i].map some from
          congrArg (fun a ↦ [a]) hextends.position)
      rw [List.map_cons, List.map_cons, List.map_cons, hget]
      exact congrArg (· ++ (idx.map p.segment).map some) hposition

/-- The rows taken so far, as the segments that are in them. -/
structure SlicedRows (s : Sliced δ ν) (taken : List (List (Option (Tensor δ ν)))) : Prop where
  rows : ∃ rows, Compressed s.rowOffsets s.segmentIndices rows ∧
    Reads (s.segments.entries.map Prod.fst) rows taken
  sound : s.segments.Sound p.segment
  mem : ∀ a ∈ s.segments.entries, ∃ i < p.tensors.length, a = p.segment i

theorem slicedRows_empty : SlicedRows p ({} : Sliced δ ν) [] :=
  ⟨⟨[], compressed_nil, .nil⟩, Table.sound_empty _, fun _ h ↦ nomatch h⟩

theorem mem_rowSegmentIndices {row i : ℕ} (hrow : row < p.len)
    (hi : i ∈ p.rowSegmentIndices row) : i < p.tensors.length := by
  rcases p.rows_cases with ⟨ho, hs, -⟩ | ⟨o, s, rows, ho, hs, hrows, hin⟩
  · rw [rowSegmentIndices, ho] at hi
    rw [len, ho] at hrow
    rw [List.mem_singleton.mp hi]
    exact hrow
  · rw [rowSegmentIndices, ho, hs] at hi
    exact hin i (List.mem_of_mem_drop (List.mem_of_mem_take hi))

theorem sliceRow_ok {s : Sliced δ ν} {taken : List (List (Option (Tensor δ ν)))} {row : ℤ}
    {b : List (Option (Tensor δ ν))} (h : SlicedRows p s taken)
    (hrow : Media.takeRow p.rows row = .ok b) :
    ∃ s', p.sliceRow s row = .ok s' ∧ SlicedRows p s' (taken ++ [b]) := by
  rw [Media.takeRow, length_rows] at hrow
  rw [sliceRow]
  generalize (if row < 0 then row + (p.len : ℤ) else row) = k at hrow ⊢
  split at hrow
  · rename_i hpos
    cases hget : p.rows[k.toNat]? with
    | none =>
      rw [hget] at hrow
      cases hrow
    | some group =>
      rw [hget] at hrow
      obtain rfl := Except.ok.inj hrow
      obtain ⟨hlt, hgroup⟩ := List.getElem?_eq_some_iff.mp hget
      rw [length_rows] at hlt
      obtain ⟨hoffsets, hsound, hle, hmem, added, hadded, hreads⟩ :=
        foldl_sliceSegment p (p.rowSegmentIndices k.toNat) h.sound
      obtain ⟨rows, hrows, htaken⟩ := h.rows
      refine ⟨_, if_pos ⟨hpos, by omega⟩, ⟨rows ++ [added], ?_, ?_⟩, hsound, ?_⟩
      · rw [hoffsets, hadded]
        exact hrows.concat added
      · refine (htaken.mono (hle.map _)).concat ?_
        have hfst : ∀ l : List (Segment δ ν), added.map ((l.map Prod.fst)[·]?) =
            (added.map (l[·]?)).map (Option.map Prod.fst) := by
          intro l
          rw [List.map_map]
          exact List.map_congr_left fun i _ ↦ List.getElem?_map
        rw [hfst, hreads, ← hgroup]
        simp only [PackedTensor.rows, List.getElem_map, List.getElem_range, List.map_map]
        rfl
      · intro a ha
        rcases hmem a ha with ha | ⟨i, hi, rfl⟩
        · exact h.mem a ha
        · exact ⟨i, p.mem_rowSegmentIndices hlt hi, rfl⟩
  · cases hrow

theorem sliceRow_error {s : Sliced δ ν} {row : ℤ} {e : MediaError}
    (hrow : Media.takeRow p.rows row = .error e) : p.sliceRow s row = .error e := by
  rw [Media.takeRow, length_rows] at hrow
  rw [sliceRow]
  generalize (if row < 0 then row + (p.len : ℤ) else row) = k at hrow ⊢
  split at hrow
  · cases hget : p.rows[k.toNat]? with
    | none =>
      rw [hget] at hrow
      have hge := List.getElem?_eq_none_iff.mp hget
      rw [length_rows] at hge
      rw [if_neg (by omega), Except.error.inj hrow]
    | some group =>
      rw [hget] at hrow
      cases hrow
  · rename_i hneg
    rw [if_neg fun h ↦ hneg h.1, Except.error.inj hrow]

theorem filterMap_provenance {entries : List (Segment δ ν)}
    (h : ∀ e ∈ entries, ∃ q < next, e.2 = some q ∧ table q = e.1) :
    (entries.filterMap Prod.snd).map table = entries.map Prod.fst ∧
      ∀ q ∈ entries.filterMap Prod.snd, q < next := by
  induction entries with
  | nil => exact ⟨rfl, fun _ h ↦ nomatch h⟩
  | cons e entries ih =>
    obtain ⟨⟨q, hlt, hsnd, hfst⟩, hrest⟩ := List.forall_mem_cons.mp h
    obtain ⟨hmap, hall⟩ := ih hrest
    rw [List.filterMap_cons_some hsnd, List.map_cons, List.map_cons, hmap, hfst]
    exact ⟨rfl, List.forall_mem_cons.mpr ⟨hlt, hall⟩⟩

theorem slice_refines (idx : List ℤ) (h : Coherent table next p) :
    Refines table next ((p.slice idx).map (·, next)) (p.view.slice idx) := by
  rw [slice, Media.slice]
  cases hc : p.isCompact with
  | false =>
    obtain ⟨ho, hs⟩ := p.rowOffsets_of_legacy hc
    rw [if_pos ⟨by rw [deduplicationEnabled, hs]; simp, ho⟩, p.view_of_legacy hc]
    show Refines table next
      (((idx.mapM (item p.tensors)).bind fun tensors ↦
        init tensors p.dimToPack p.padToMaxShape none none none).map (·, next))
      ((idx.mapM (item p.tensors)).bind (Media.ofTensors p.dimToPack p.padToMaxShape))
    cases idx.mapM (item p.tensors) with
    | error e => exact .error e
    | ok tensors => exact refines_ofTensors table next tensors p.dimToPack p.padToMaxShape
  | true =>
    have hcond : ¬ (¬ p.deduplicationEnabled = true ∧ p.rowOffsets = none) := by
      rintro ⟨hd, ho⟩
      rw [isCompact, ho] at hc
      simp only [Option.isSome_none, Bool.or_false] at hc
      exact hd hc
    rw [if_neg hcond, p.view_of_compact hc]
    have hstep : ∀ s bs row b, SlicedRows p s bs → Media.takeRow p.rows row = .ok b →
        ∃ s', p.sliceRow s row = .ok s' ∧ SlicedRows p s' (bs ++ [b]) :=
      fun s bs row b hinv hrow ↦ p.sliceRow_ok hinv hrow
    rcases foldlM_mapM hstep (fun s row e hrow ↦ p.sliceRow_error hrow) idx
        (slicedRows_empty p) with ⟨e, hmap, hfold⟩ | ⟨taken, s, hmap, hfold, hinv⟩
    · simp only [hmap, hfold]
      exact .error e
    · obtain ⟨rows, hrows, hreads⟩ := hinv.rows
      have hprovenance : ∀ l ∈ p.segmentProvenance, ∀ e ∈ s.segments.entries,
          ∃ q < next, e.2 = some q ∧ table q = e.1 := by
        intro l hl e he
        obtain ⟨i, hi, rfl⟩ := hinv.mem e he
        obtain ⟨hmap, hlt⟩ := h l hl
        have hlen := p.length_provenance l hl
        have hil : i < l.length := by omega
        have hsnd : (p.segment i).2 = some l[i] := by
          rw [segment, Option.mem_def.mp hl, Option.map_some, List.getD_eq_getElem _ _ hil]
        refine ⟨l[i], hlt _ (List.getElem_mem hil), hsnd, ?_⟩
        show _ = p.tensors.getD i none
        rw [List.getD_eq_getElem _ _ hi]
        simp only [← hmap, List.getElem_map]
      have hlen : ∀ l ∈ p.segmentProvenance.map fun _ ↦ s.segments.entries.filterMap Prod.snd,
          l.length = (s.segments.entries.map Prod.fst).length := by
        intro l hl
        obtain ⟨l', hl', rfl⟩ := Option.mem_map.mp hl
        rw [← (filterMap_provenance (hprovenance l' hl')).1, List.length_map]
      obtain ⟨q, hq, htensors, -, hsame, hview⟩ := init_compressed (s.segments.entries.map Prod.fst)
        (p.segmentProvenance.map fun _ ↦ s.segments.entries.filterMap Prod.snd) p.dimToPack
        p.padToMaxShape hrows (hrows.indices ▸ hreads.lt) hlen
      rw [hreads.getD] at hview
      simp only [hmap, hfold, bind, Except.bind, hq]
      refine .ok hview le_rfl (.refl _ _) ?_
      intro l hl
      rw [hsame] at hl
      obtain ⟨l', hl', rfl⟩ := Option.mem_map.mp hl
      rw [htensors]
      exact filterMap_provenance (hprovenance l' hl')

end Slice

section Concat

/-- What is in the table of the segments, and that all of its provenance is older than `next`. -/
structure Owns (table : ℕ → Option (Tensor δ ν)) (s : Interned δ ν) : Prop where
  sound : s.segments.Sound fun q ↦ (table q, q)
  entries : ∀ e ∈ s.segments.entries, e.1 = table e.2 ∧ e.2 < s.next

theorem owns_empty (table : ℕ → Option (Tensor δ ν)) (next : ℕ) :
    Owns table ({ next } : Interned δ ν) := ⟨Table.sound_empty _, fun _ h ↦ nomatch h⟩

theorem Owns.mono {table' : ℕ → Option (Tensor δ ν)} {s : Interned δ ν} (h : Owns table s)
    (hagree : Agree s.next table table') : Owns table' s where
  sound := by
    intro q i hq
    have hget := h.sound q i hq
    have hlt := (h.entries _ (List.mem_of_getElem? hget)).2
    rw [hget]
    exact congrArg (fun t ↦ some (t, q)) (hagree q hlt).symm
  entries := by
    intro e he
    obtain ⟨htable, hlt⟩ := h.entries e he
    exact ⟨by rw [htable, hagree _ hlt], hlt⟩

/-- The segments with provenance are those that the table has for it. -/
def Known (table : ℕ → Option (Tensor δ ν)) (next : ℕ) (segments : List (Segment δ ν)) : Prop :=
  ∀ x ∈ segments, ∀ q ∈ x.2, table q = x.1 ∧ q < next

theorem Known.mono {table' : ℕ → Option (Tensor δ ν)} {next' : ℕ} {segments : List (Segment δ ν)}
    (h : Known table next segments) (hagree : Agree next table table') (hle : next ≤ next') :
    Known table' next' segments := by
  intro x hx q hq
  obtain ⟨htable, hlt⟩ := h x hx q hq
  exact ⟨by rw [hagree q hlt, htable], hlt.trans_le hle⟩

theorem Agree.trans {next' : ℕ} {table' table'' : ℕ → Option (Tensor δ ν)}
    (h : Agree next table table') (hle : next ≤ next') (h' : Agree next' table' table'') :
    Agree next table table'' := fun q hq ↦ (h' q (hq.trans_le hle)).trans (h q hq)

/-- What one more segment, or more, do to the segments that are there. -/
structure Grows (table : ℕ → Option (Tensor δ ν)) (s s' : Interned δ ν)
    (table' : ℕ → Option (Tensor δ ν)) : Prop where
  agree : Agree s.next table table'
  le : s.next ≤ s'.next
  owns : Owns table' s'
  entries : s.segments.entries <+: s'.segments.entries

theorem Grows.trans {s s' s'' : Interned δ ν} {table' table'' : ℕ → Option (Tensor δ ν)}
    (h : Grows table s s' table') (h' : Grows table' s' s'' table'') : Grows table s s'' table'' :=
  ⟨h.agree.trans h.le h'.agree, h.le.trans h'.le, h'.owns, h.entries.trans h'.entries⟩

theorem internSegment_grows {s : Interned δ ν} (h : Owns table s) {x : Segment δ ν}
    (hknown : Known table s.next [x]) : ∃ table', Grows table s (internSegment s x).1 table' ∧
      ((internSegment s x).1.segments.entries.map Prod.fst)[(internSegment s x).2]? =
        some x.1 := by
  obtain ⟨tensor, provenance⟩ := x
  cases provenance with
  | some q =>
    obtain ⟨htable, hlt⟩ := hknown _ (List.mem_singleton.mpr rfl) q rfl
    have hextends := Table.extends_intern q h.sound
    simp only [htable] at hextends
    refine ⟨table, ⟨.refl _ _, le_rfl, ⟨hextends.sound, ?_⟩, hextends.entries⟩, ?_⟩
    · intro e he
      rcases hextends.mem e he with he | rfl
      · exact h.entries e he
      · exact ⟨rfl, hlt⟩
    · rw [List.getElem?_map]
      exact (congrArg (Option.map Prod.fst) hextends.position).trans (congrArg some htable)
  | none =>
    have hagree : Agree s.next table (Function.update table s.next tensor) := fun q hq ↦
      Function.update_of_ne (by omega) _ _
    have hextends := Table.extends_add s.next (h.mono hagree).sound
    simp only [Function.update_self] at hextends
    refine ⟨_, ⟨hagree, Nat.le_succ _, ⟨hextends.sound, ?_⟩, hextends.entries⟩, ?_⟩
    · intro e he
      rcases hextends.mem e he with he | rfl
      · obtain ⟨htable, hlt⟩ := (h.mono hagree).entries e he
        exact ⟨htable, Nat.lt_succ_of_lt hlt⟩
      · exact ⟨rfl, Nat.lt_succ_self _⟩
    · rw [List.getElem?_map]
      exact (congrArg (Option.map Prod.fst) hextends.position).trans
        (congrArg some (Function.update_self ..))

theorem physicalRemap_grows (segments : List (Segment δ ν)) {s : Interned δ ν} (h : Owns table s)
    (hknown : Known table s.next segments) :
    ∃ table', Grows table s (physicalRemap s segments).1 table' ∧
      (physicalRemap s segments).2.map
        (((physicalRemap s segments).1.segments.entries.map Prod.fst)[·]?) =
          (segments.map Prod.fst).map some := by
  induction segments generalizing s table with
  | nil => exact ⟨table, ⟨.refl _ _, le_rfl, h, List.prefix_refl _⟩, rfl⟩
  | cons x segments ih =>
    obtain ⟨hhead, hrest⟩ := List.forall_mem_cons.mp hknown
    obtain ⟨table₁, hgrows, hget⟩ :=
      internSegment_grows h fun y hy ↦ by rw [List.mem_singleton.mp hy]; exact hhead
    have hlater : Known table s.next segments := hrest
    obtain ⟨table₂, hgrows', hgets⟩ := ih hgrows.owns (hlater.mono hgrows.agree hgrows.le)
    refine ⟨table₂, hgrows.trans hgrows', ?_⟩
    have hposition := map_getElem?_of_isPrefix (hgrows'.entries.map Prod.fst)
      (show [(internSegment s x).2].map _ = [x.1].map some from congrArg (fun a ↦ [a]) hget)
    exact congrArg₂ (· ++ ·) hposition hgets

/-- The rows so far, as the segments that are in them. -/
structure ConcatenatedRows (table : ℕ → Option (Tensor δ ν)) (s : Concatenated δ ν)
    (groups : List (List (Option (Tensor δ ν)))) : Prop where
  owns : Owns table s.interned
  rows : ∃ rows, Compressed s.rowOffsets s.segmentIndices rows ∧
    Reads (s.interned.segments.entries.map Prod.fst) rows groups

theorem foldl_concatRow (p : PackedTensor δ ν) {remap : List ℕ} {s : Concatenated δ ν}
    {groups : List (List (Option (Tensor δ ν)))} (h : ConcatenatedRows table s groups)
    (hremap : remap.map ((s.interned.segments.entries.map Prod.fst)[·]?) = p.tensors.map some)
    (l : List ℕ) (hl : ∀ row ∈ l, row < p.len) :
    ConcatenatedRows table (l.foldl (p.concatRow remap) s)
      (groups ++ l.map fun row ↦ (p.rowSegmentIndices row).map (p.tensors.getD · none)) ∧
        (l.foldl (p.concatRow remap) s).interned = s.interned := by
  induction l generalizing s groups with
  | nil =>
    rw [List.map_nil, List.append_nil]
    exact ⟨h, rfl⟩
  | cons row l ih =>
    obtain ⟨hrow, hrest⟩ := List.forall_mem_cons.mp hl
    obtain ⟨rows, hrows, hreads⟩ := h.rows
    have hget : ((p.rowSegmentIndices row).map (remap.getD · 0)).map
        ((s.interned.segments.entries.map Prod.fst)[·]?) =
          ((p.rowSegmentIndices row).map (p.tensors.getD · none)).map some := by
      rw [List.map_map, List.map_map]
      apply List.map_congr_left
      intro i hi
      have hlt := p.mem_rowSegmentIndices hrow hi
      have hlen : remap.length = p.tensors.length := by
        rw [← List.length_map, hremap, List.length_map]
      have hat := congrArg (·[i]?) hremap
      simp only [List.getElem?_map, List.getElem?_eq_getElem hlt,
        List.getElem?_eq_getElem (hlen ▸ hlt), Option.map_some, Option.some.injEq] at hat
      rw [Function.comp_apply, Function.comp_apply, List.getD_eq_getElem _ _ hlt,
        List.getD_eq_getElem _ _ (hlen ▸ hlt), List.getElem?_map]
      exact hat
    obtain ⟨hconcat, hsame⟩ := ih (s := p.concatRow remap s row)
      ⟨h.owns, _, hrows.concat _, hreads.concat hget⟩ hremap hrest
    rw [List.foldl_cons, List.map_cons]
    refine ⟨?_, hsame⟩
    rwa [List.append_assoc] at hconcat

theorem known_segment (p : PackedTensor δ ν) (h : Coherent table next p) :
    Known table next ((List.range p.tensors.length).map p.segment) := by
  intro x hx q hq
  obtain ⟨i, hi, rfl⟩ := List.mem_map.mp hx
  rw [List.mem_range] at hi
  obtain ⟨l, hl, rfl⟩ := Option.mem_map.mp hq
  obtain ⟨hmap, hlt⟩ := h l hl
  have hil : i < l.length := by rw [p.length_provenance l hl]; exact hi
  rw [List.getD_eq_getElem _ _ hil]
  refine ⟨?_, hlt _ (List.getElem_mem hil)⟩
  show _ = p.tensors.getD i none
  rw [List.getD_eq_getElem _ _ hi]
  simp only [← hmap, List.getElem_map]

theorem concatValue_rows (p : PackedTensor δ ν) {s : Concatenated δ ν}
    {groups : List (List (Option (Tensor δ ν)))} (h : ConcatenatedRows table s groups)
    (hp : Coherent table s.interned.next p) :
    ∃ table', Grows table s.interned (concatValue s p).interned table' ∧
      ConcatenatedRows table' (concatValue s p) (groups ++ p.rows) := by
  obtain ⟨table', hgrows, hremap⟩ :=
    physicalRemap_grows ((List.range p.tensors.length).map p.segment) h.owns (known_segment p hp)
  have hfst : ((List.range p.tensors.length).map p.segment).map Prod.fst = p.tensors := by
    rw [List.map_map]
    apply List.ext_getElem
    · simp
    · intro i hi hi'
      simp [segment, hi']
  rw [hfst] at hremap
  obtain ⟨rows, hrows, hreads⟩ := h.rows
  obtain ⟨hconcat, hsame⟩ := foldl_concatRow p
    (s := { s with interned := (physicalRemap s.interned
      ((List.range p.tensors.length).map p.segment)).1 })
    ⟨hgrows.owns, rows, hrows, hreads.mono (hgrows.entries.map _)⟩ hremap (List.range p.len)
    fun row hrow ↦ List.mem_range.mp hrow
  refine ⟨table', ?_, hconcat⟩
  rw [concatValue]
  simp only
  rwa [hsame]

theorem foldl_concatValue (ps : List (PackedTensor δ ν)) {s : Concatenated δ ν}
    {groups : List (List (Option (Tensor δ ν)))} (h : ConcatenatedRows table s groups)
    (hps : ∀ p ∈ ps, Coherent table s.interned.next p) :
    ∃ table', Agree s.interned.next table table' ∧
      s.interned.next ≤ (ps.foldl concatValue s).interned.next ∧
      ConcatenatedRows table' (ps.foldl concatValue s) (groups ++ ps.flatMap rows) := by
  induction ps generalizing s groups table with
  | nil =>
    rw [List.flatMap_nil, List.append_nil]
    exact ⟨table, .refl _ _, le_rfl, h⟩
  | cons p ps ih =>
    obtain ⟨hhead, hrest⟩ := List.forall_mem_cons.mp hps
    obtain ⟨table₁, hgrows, hrows⟩ := concatValue_rows p h hhead
    obtain ⟨table₂, hagree, hle, hrows'⟩ :=
      ih hrows fun q hq ↦ (hrest q hq).mono hgrows.agree hgrows.le
    refine ⟨table₂, hgrows.agree.trans hgrows.le hagree, hgrows.le.trans hle, ?_⟩
    rwa [List.append_assoc] at hrows'

theorem commonSettings_view (ps : List (PackedTensor δ ν)) :
    Media.commonSettings (ps.map view) = commonSettings ps := by
  rw [Media.commonSettings, commonSettings, List.map_map, List.map_map]
  rfl

theorem any_isCompact_view (ps : List (PackedTensor δ ν)) :
    (ps.map view).any Media.isCompact = ps.any isCompact := by
  rw [List.any_map]
  congr 1
  funext p
  exact p.isCompact_view

theorem flatMap_groups_view (ps : List (PackedTensor δ ν)) :
    (ps.map view).flatMap Media.groups = ps.flatMap rows := by
  rw [List.flatMap_map]
  exact List.flatMap_congr fun p _ ↦ p.groups_view

/-- Values that are not all in the legacy representation put together. -/
theorem concat_compact (ps : List (PackedTensor δ ν)) (h : ∀ p ∈ ps, Coherent table next p)
    (hcompact : ps.any isCompact = true) {dimToPack : ℤ} {padToMaxShape : Bool}
    (hsettings : commonSettings ps = .ok (dimToPack, padToMaxShape)) :
    ∃ q next' table', concat ps next = .ok (q, next') ∧ next ≤ next' ∧ Agree next table table' ∧
      Coherent table' next' q ∧ q.segmentIndices.isSome ∧
        q.view = ⟨dimToPack, padToMaxShape, .compact (ps.flatMap rows)⟩ := by
  have hstart : ConcatenatedRows table { interned := { next } } [] :=
    ⟨owns_empty table next, [], compressed_nil, .nil⟩
  obtain ⟨table', hagree, hle, howns, rows, hrows, hreads⟩ := foldl_concatValue ps hstart h
  rw [List.nil_append] at hreads
  generalize hs : ps.foldl concatValue { interned := { next } } = s at hle howns hrows hreads
  have hlen : ∀ l ∈ some (s.interned.segments.entries.map Prod.snd),
      l.length = (s.interned.segments.entries.map Prod.fst).length := by
    intro l hl
    rw [← Option.some.inj hl, List.length_map, List.length_map]
  obtain ⟨q, hq, htensors, hindices, hprovenance, hview⟩ := init_compressed
    (s.interned.segments.entries.map Prod.fst) (some (s.interned.segments.entries.map Prod.snd))
    dimToPack padToMaxShape hrows (hrows.indices ▸ hreads.lt) hlen
  refine ⟨q, s.interned.next, table', ?_, hle, hagree, ?_, ?_, ?_⟩
  · rw [concat, hsettings]
    simp only [bind, Except.bind, hcompact, if_true, hs, hq]
    rfl
  · intro l hl
    rw [hprovenance] at hl
    obtain rfl := Option.some.inj hl
    refine ⟨?_, ?_⟩
    · rw [htensors, List.map_map]
      exact List.map_congr_left fun e he ↦ (howns.entries e he).1.symm
    · intro n hn
      obtain ⟨e, he, rfl⟩ := List.mem_map.mp hn
      exact (howns.entries e he).2
  · rw [hindices]
    rfl
  · rw [hview, hreads.getD]

theorem segments_of_legacy (p : PackedTensor δ ν) (h : p.isCompact = false) :
    p.view.segments = p.tensors := by
  rw [Media.segments, groups_view, p.rows_of_none (p.rowOffsets_of_legacy h).1, ← List.flatMap_def]
  exact List.flatMap_singleton' p.tensors

theorem flatMap_segments_view {ps : List (PackedTensor δ ν)} (h : ps.any isCompact = false) :
    (ps.map view).flatMap Media.segments = ps.flatMap tensors := by
  rw [List.flatMap_map]
  apply List.flatMap_congr
  intro p hp
  apply segments_of_legacy
  rw [List.any_eq_false] at h
  exact Bool.eq_false_iff.mpr (h p hp)

theorem concat_refines (ps : List (PackedTensor δ ν)) (h : ∀ p ∈ ps, Coherent table next p) :
    Refines table next (concat ps next) (Media.concat (ps.map view)) := by
  cases hsettings : commonSettings ps with
  | error e =>
    rw [concat, Media.concat, commonSettings_view, hsettings]
    exact .error e
  | ok settings =>
    obtain ⟨dimToPack, padToMaxShape⟩ := settings
    cases hcompact : ps.any isCompact with
    | true =>
      obtain ⟨q, next', table', hq, hle, hagree, hcoherent, -, hview⟩ :=
        concat_compact ps h hcompact hsettings
      rw [hq, Media.concat, commonSettings_view, hsettings, any_isCompact_view, hcompact,
        flatMap_groups_view]
      exact .ok hview hle hagree hcoherent
    | false =>
      rw [concat, Media.concat, commonSettings_view, hsettings, any_isCompact_view, hcompact,
        flatMap_segments_view hcompact]
      exact refines_ofTensors table next _ dimToPack padToMaxShape

theorem mergeSegments_refines (ps : List (PackedTensor δ ν))
    (h : ∀ p ∈ ps, Coherent table next p) :
    Refines table next (mergeSegments ps next) (Media.mergeSegments (ps.map view)) := by
  rw [mergeSegments, Media.mergeSegments, any_isCompact_view]
  cases hcompact : ps.any isCompact with
  | false => exact concat_refines ps h
  | true =>
    cases hsettings : commonSettings ps with
    | error e =>
      rw [concat, commonSettings_view, hsettings]
      exact .error e
    | ok settings =>
      obtain ⟨dimToPack, padToMaxShape⟩ := settings
      obtain ⟨q, next', table', hq, hle, hagree, hcoherent, hindices, hview⟩ :=
        concat_compact ps h hcompact hsettings
      obtain ⟨segmentIndices, hi⟩ := Option.isSome_iff_exists.mp hindices
      have hdim : q.dimToPack = dimToPack := congrArg Media.dimToPack hview
      have hpad : q.padToMaxShape = padToMaxShape := congrArg Media.padToMaxShape hview
      have hrow : segmentIndices.map (q.tensors.getD · none) =
          (ps.map view).flatMap Media.segments := by
        have hsegments := q.iterLogicalSegments_eq
        rw [iterLogicalSegments, hi, hview] at hsegments
        rw [show segmentIndices.map (q.tensors.getD · none) = (ps.flatMap rows).flatten from
          hsegments, ← flatMap_groups_view]
        rw [List.flatMap_def, List.flatMap_def, List.flatten_flatten, List.map_map]
        rfl
      have hrange : ∀ i ∈ segmentIndices, i < q.tensors.length := by
        rcases q.rows_cases with ⟨-, hnone, -⟩ | ⟨_, _, _, -, hi', -, hin⟩
        · rw [hi] at hnone
          cases hnone
        · rw [hi] at hi'
          rwa [Option.some.inj hi']
      have hone : Compressed [0, segmentIndices.length] segmentIndices [segmentIndices] :=
        compressed_nil.concat segmentIndices
      obtain ⟨r, hr, htensors, -, hprovenance, hview'⟩ := init_compressed q.tensors
        q.segmentProvenance q.dimToPack q.padToMaxShape hone hrange q.length_provenance
      rw [List.map_singleton, hrow, hdim, hpad] at hview'
      rw [commonSettings_view, hsettings]
      simp only [bind, Except.bind, hq, hi, Option.getD_some, hr, if_true, not_true_eq_false,
        if_false]
      refine .ok hview' hle hagree ?_
      intro l hl
      rw [hprovenance] at hl
      rw [htensors]
      exact hcoherent l hl

theorem flattenedConcat_refines (E : ElementTypes δ ν) (ps : List (PackedTensor δ ν))
    (h : ∀ p ∈ ps, Coherent table next p) :
    Refines table next (flattenedConcat E ps next) (Media.flattenedConcat E (ps.map view)) := by
  rw [flattenedConcat, Media.flattenedConcat, commonSettings_view, any_isCompact_view]
  cases hsettings : commonSettings ps with
  | error e => exact .error e
  | ok settings =>
    obtain ⟨dimToPack, padToMaxShape⟩ := settings
    simp only [bind, Except.bind]
    cases hcompact : ps.any isCompact with
    | true =>
      have hall : (ps.map view).all (·.len = 1) = ps.all (·.len = 1) := by
        rw [List.all_map]
        congr 1
        funext p
        rw [Function.comp_apply, len_view]
      rw [hall]
      simp only [if_true]
      split
      · exact concat_refines ps h
      · exact .error _
    | false =>
      have hmap : (ps.map view).mapM (Media.asTensor E) = ps.mapM (asTensor · E) := by
        rw [List.mapM_map]
        congr 1
        funext p
        exact (asTensor_view E p).symm
      rw [hmap]
      simp only [Bool.false_eq_true, if_false]
      cases ps.mapM (asTensor · E) with
      | error e => exact .error e
      | ok tensors => exact refines_ofTensors table next tensors dimToPack padToMaxShape

end Concat

end NemoRL.Data.PackedTensor
