import Mathlib
import NemoRL.Data.MediaRows

namespace NemoRL.Data

open Foundations Foundations.Tensors

variable {δ ν : Type} [Zero ν] {E : ElementTypes δ ν} {padToMaxShape : Bool} {dimToPack : ℤ}

section Covers

/-- Each tensor of `ys` stands for some of the tensors, in their order. -/
def Covers (E : ElementTypes δ ν) (padToMaxShape : Bool) (dimToPack : ℤ)
    (ys ts : List (Tensor δ ν)) : Prop :=
  ∃ gs, List.Forall₂ (PacksTo E padToMaxShape dimToPack) ys gs ∧ ts = gs.flatten

variable {ys zs ts us : List (Tensor δ ν)}

theorem Covers.nil : Covers E padToMaxShape dimToPack [] [] := ⟨[], .nil, rfl⟩

theorem Covers.append (h : Covers E padToMaxShape dimToPack ys ts)
    (h' : Covers E padToMaxShape dimToPack zs us) :
    Covers E padToMaxShape dimToPack (ys ++ zs) (ts ++ us) := by
  obtain ⟨gs, hgs, rfl⟩ := h
  obtain ⟨hs, hhs, rfl⟩ := h'
  exact ⟨gs ++ hs, List.rel_append hgs hhs, List.flatten_append.symm⟩

theorem Covers.refl (ts : List (Tensor δ ν)) : Covers E padToMaxShape dimToPack ts ts := by
  induction ts with
  | nil => exact .nil
  | cons t ts ih =>
    have hhead : Covers E padToMaxShape dimToPack [t] [t] := ⟨[[t]], .cons (.inl rfl) .nil, rfl⟩
    exact hhead.append ih

theorem Covers.eq_nil_iff (h : Covers E padToMaxShape dimToPack ys ts) : ys = [] ↔ ts = [] := by
  obtain ⟨gs, hgs, rfl⟩ := h
  cases hgs with
  | nil => exact ⟨fun _ ↦ rfl, fun _ ↦ rfl⟩
  | cons hy _ =>
    constructor
    · intro h
      cases h
    · intro h
      exact absurd (List.append_eq_nil_iff.mp h).1 hy.ne_nil

theorem Covers.pack_eq (h : Covers E padToMaxShape dimToPack ys ts) :
    pack E padToMaxShape dimToPack ys = pack E padToMaxShape dimToPack ts := by
  obtain ⟨gs, hgs, rfl⟩ := h
  exact pack_flatten hgs

theorem Covers.uniform (h : Covers E padToMaxShape dimToPack ys ts) (hys : Uniform ys) :
    Uniform ts := by
  obtain ⟨gs, hgs, rfl⟩ := h
  have hdtype : ∀ t ∈ gs.flatten, ∃ y ∈ ys, t.dtype = y.dtype := by
    intro t ht
    obtain ⟨g, hg, ht⟩ := List.mem_flatten.mp ht
    obtain ⟨y, hy, hpacks⟩ := exists_of_mem_right hgs hg
    exact ⟨y, hy, hpacks.dtype t ht⟩
  intro t ht u hu
  obtain ⟨y, hy, hty⟩ := hdtype t ht
  obtain ⟨z, hz, huz⟩ := hdtype u hu
  rw [hty, huz, hys y hy z hz]

/-- What the tensors are packed to stands for them, and for what they stand for. -/
theorem Covers.packed (h : Covers E padToMaxShape dimToPack ys ts) (hne : ys ≠ [])
    (hys : Uniform ys) {y : Tensor δ ν} (hpack : pack E padToMaxShape dimToPack ys = .ok y) :
    Covers E padToMaxShape dimToPack [y] ts := by
  refine ⟨[ts], .cons (.inr ⟨mt h.eq_nil_iff.mpr hne, h.uniform hys, ?_⟩) .nil, by simp⟩
  rw [← h.pack_eq, hpack]

theorem reduceOption_map_converted (dtype : δ) (g : List (Option (Tensor δ ν))) :
    (g.map (PackedTensor.converted E dtype)).reduceOption = g.reduceOption.map fun t ↦
      if E.isFloatingPoint t.dtype then convert E dtype t else t := by
  induction g with
  | nil => rfl
  | cons a g ih =>
    cases a with
    | none => exact ih
    | some t => exact congrArg (_ :: ·) ih

/-- The conversion of a tensor is the conversion of the tensors it stands for. -/
theorem Covers.converted (dtype : δ) (h : Covers E padToMaxShape dimToPack ys ts) :
    Covers E padToMaxShape dimToPack
      (ys.map fun t ↦ if E.isFloatingPoint t.dtype then convert E dtype t else t)
      (ts.map fun t ↦ if E.isFloatingPoint t.dtype then convert E dtype t else t) := by
  obtain ⟨gs, hgs, rfl⟩ := h
  refine ⟨gs.map (List.map _), ?_, List.map_flatten⟩
  rw [List.forall₂_map_left_iff, List.forall₂_map_right_iff]
  refine hgs.imp ?_
  intro y g hy
  have hdtype := hy.dtype
  by_cases hfloat : E.isFloatingPoint y.dtype = true
  · rw [if_pos hfloat, List.map_congr_left (g := convert E dtype) fun t ht ↦ by
      rw [hdtype t ht, if_pos hfloat]]
    exact hy.convert dtype
  · rw [if_neg hfloat, List.map_congr_left (g := id) fun t ht ↦ by
      rw [hdtype t ht, if_neg hfloat]; rfl, List.map_id]
    exact hy

end Covers

namespace Media

section Operations

variable {τ : Type} {m m' : Media τ} {ms : List (Media τ)}

theorem groups_of_legacy (h : m.isCompact = false) : m.groups = m.segments.map ([·]) := by
  rw [segments, groups]
  rw [isCompact] at h
  split at h
  · rename_i tensors _
    show _ = List.map _ (tensors.map ([·])).flatten
    rw [← List.flatMap_def, List.flatMap_singleton']
  · cases h

theorem ofTensors_ok {tensors : List (Option τ)} {dimToPack : ℤ} {padToMaxShape : Bool}
    (h : ofTensors dimToPack padToMaxShape tensors = .ok m) :
    m = ⟨dimToPack, padToMaxShape, .legacy tensors⟩ := by
  rw [ofTensors] at h
  split at h
  · cases h
  · exact (Except.ok.inj h).symm

theorem concat_ok (h : concat ms = .ok m) :
    commonSettings ms = .ok (m.dimToPack, m.padToMaxShape) ∧ m.groups = ms.flatMap groups ∧
      m.isCompact = ms.any isCompact := by
  rw [concat] at h
  cases hsettings : commonSettings ms with
  | error e =>
    rw [hsettings] at h
    cases h
  | ok settings =>
    rw [hsettings] at h
    cases hcompact : ms.any isCompact with
    | true =>
      simp only [bind, Except.bind, hcompact, if_true] at h
      obtain rfl := Except.ok.inj h
      exact ⟨rfl, rfl, rfl⟩
    | false =>
      simp only [bind, Except.bind, hcompact, Bool.false_eq_true, if_false] at h
      obtain rfl := ofTensors_ok h
      refine ⟨rfl, ?_, rfl⟩
      show (ms.flatMap segments).map ([·]) = _
      rw [List.map_flatMap]
      apply List.flatMap_congr
      intro n hn
      rw [List.any_eq_false] at hcompact
      exact (groups_of_legacy (Bool.eq_false_iff.mpr (hcompact n hn))).symm

theorem mergeSegments_ok (h : mergeSegments ms = .ok m) :
    commonSettings ms = .ok (m.dimToPack, m.padToMaxShape) ∧
      m.segments = ms.flatMap segments ∧ m.isCompact = ms.any isCompact ∧
        (m.isCompact = true → m.len = 1) := by
  rw [mergeSegments] at h
  cases hcompact : ms.any isCompact with
  | true =>
    simp only [hcompact, if_true] at h
    cases hsettings : commonSettings ms with
    | error e =>
      rw [hsettings] at h
      cases h
    | ok settings =>
      rw [hsettings] at h
      obtain rfl := Except.ok.inj h
      exact ⟨rfl, List.flatten_singleton, rfl, fun _ ↦ rfl⟩
  | false =>
    simp only [hcompact, Bool.false_eq_true, if_false] at h
    obtain ⟨hsettings, hgroups, hsame⟩ := concat_ok h
    refine ⟨hsettings, ?_, hsame.trans hcompact, ?_⟩
    · rw [segments, hgroups, List.flatMap_def, List.flatMap_def, List.flatten_flatten, List.map_map]
      rfl
    · intro htrue
      rw [hsame, hcompact] at htrue
      cases htrue

theorem takeRow_map_singleton {τ : Type} (tensors : List τ) (row : ℤ) {a : τ}
    (h : PackedTensor.item tensors row = .ok a) :
    takeRow (tensors.map ([·])) row = .ok [a] := by
  rw [PackedTensor.item] at h
  rw [takeRow, List.length_map]
  generalize (if row < 0 then row + (tensors.length : ℤ) else row) = k at h ⊢
  split at h
  · rename_i hk
    rw [if_pos hk, List.getElem?_map]
    cases hget : tensors[k.toNat]? with
    | none =>
      rw [hget] at h
      cases h
    | some b =>
      rw [hget] at h
      obtain rfl := Except.ok.inj h
      rfl
  · cases h

theorem slice_ok {idx : List ℤ} (h : m.slice idx = .ok m') :
    m'.dimToPack = m.dimToPack ∧ m'.padToMaxShape = m.padToMaxShape ∧
      m'.isCompact = m.isCompact ∧ idx.mapM (takeRow m.groups) = .ok m'.groups := by
  obtain ⟨dimToPack, padToMaxShape, rows⟩ := m
  cases rows with
  | legacy tensors =>
    change (idx.mapM (PackedTensor.item tensors)).bind _ = _ at h
    cases hmap : idx.mapM (PackedTensor.item tensors) with
    | error e =>
      rw [hmap] at h
      cases h
    | ok taken =>
      rw [hmap] at h
      obtain rfl := ofTensors_ok h
      refine ⟨rfl, rfl, rfl, ?_⟩
      show idx.mapM (takeRow (tensors.map ([·]))) = .ok (taken.map ([·]))
      clear h
      induction idx generalizing taken with
      | nil =>
        obtain rfl := Except.ok.inj hmap
        rfl
      | cons i idx ih =>
        rw [List.mapM_cons] at hmap ⊢
        cases hi : PackedTensor.item tensors i with
        | error e =>
          rw [hi] at hmap
          cases hmap
        | ok a =>
          rw [hi] at hmap
          cases hrest : idx.mapM (PackedTensor.item tensors) with
          | error e =>
            rw [hrest] at hmap
            cases hmap
          | ok as =>
            rw [hrest] at hmap
            obtain rfl := Except.ok.inj hmap
            rw [takeRow_map_singleton tensors i hi, ih as hrest]
            rfl
  | compact rows =>
    change (idx.mapM (takeRow rows)).bind _ = _ at h
    show _ ∧ _ ∧ _ ∧ idx.mapM (takeRow rows) = _
    cases hmap : idx.mapM (takeRow rows) with
    | error e =>
      rw [hmap] at h
      cases h
    | ok taken =>
      rw [hmap] at h
      obtain rfl := Except.ok.inj h
      exact ⟨rfl, rfl, rfl, rfl⟩

theorem slice_of_compact {idx : List ℤ} {taken : List (List (Option τ))}
    (hcompact : m.isCompact = true) (h : idx.mapM (takeRow m.groups) = .ok taken) :
    m.slice idx = .ok ⟨m.dimToPack, m.padToMaxShape, .compact taken⟩ := by
  obtain ⟨dimToPack, padToMaxShape, rows⟩ := m
  cases rows with
  | legacy tensors => cases hcompact
  | compact rows =>
    change idx.mapM (takeRow rows) = _ at h
    show (idx.mapM (takeRow rows)).bind _ = _
    rw [h]
    rfl

theorem takeRow_forall₂ {α β : Type} {R : α → β → Prop} {as : List α} {bs : List β}
    (h : List.Forall₂ R as bs) {row : ℤ} {a : α} (ha : takeRow as row = .ok a) :
    ∃ b, takeRow bs row = .ok b ∧ R a b := by
  rw [takeRow] at ha
  rw [takeRow, ← h.length_eq]
  generalize (if row < 0 then row + (as.length : ℤ) else row) = k at ha ⊢
  split at ha
  · rename_i hk
    cases hget : as[k.toNat]? with
    | none =>
      rw [hget] at ha
      cases ha
    | some a' =>
      rw [hget] at ha
      obtain rfl := Except.ok.inj ha
      obtain ⟨hlt, hat⟩ := List.getElem?_eq_some_iff.mp hget
      have hlt' : k.toNat < bs.length := h.length_eq ▸ hlt
      refine ⟨bs[k.toNat], ?_, ?_⟩
      · rw [if_pos hk, List.getElem?_eq_getElem hlt']
      · rw [← hat]
        exact h.get hlt hlt'
  · cases ha

theorem mapM_takeRow_forall₂ {α β : Type} {R : α → β → Prop} {as : List α} {bs : List β}
    (h : List.Forall₂ R as bs) {idx : List ℤ} {taken : List α}
    (htaken : idx.mapM (takeRow as) = .ok taken) :
    ∃ taken', idx.mapM (takeRow bs) = .ok taken' ∧ List.Forall₂ R taken taken' := by
  induction idx generalizing taken with
  | nil =>
    obtain rfl := Except.ok.inj htaken
    exact ⟨[], rfl, .nil⟩
  | cons i idx ih =>
    rw [List.mapM_cons] at htaken
    cases hi : takeRow as i with
    | error e =>
      rw [hi] at htaken
      cases htaken
    | ok a =>
      rw [hi] at htaken
      cases hrest : idx.mapM (takeRow as) with
      | error e =>
        rw [hrest] at htaken
        cases htaken
      | ok as' =>
        rw [hrest] at htaken
        obtain rfl := Except.ok.inj htaken
        obtain ⟨b, hb, hR⟩ := takeRow_forall₂ h hi
        obtain ⟨taken', htaken', hall⟩ := ih hrest
        refine ⟨b :: taken', ?_, .cons hR hall⟩
        rw [List.mapM_cons, hb, htaken']
        rfl

end Operations

/-- What a value is to the pipeline: rows of a batch, or the turns of one conversation. -/
inductive Kind
  | rows
  | conversation
  deriving DecidableEq

/-- A value and what it is where the flag is set on some leaves. -/
structure Same (E : ElementTypes δ ν) (kind : Kind) (m n : Media (Tensor δ ν)) : Prop where
  dimToPack : n.dimToPack = m.dimToPack
  padToMaxShape : n.padToMaxShape = m.padToMaxShape
  legacy : n.isCompact = false → n = m
  compact : m.isCompact = true → n.isCompact = true
  rows : kind = .rows → List.Forall₂ (fun g g' ↦ Covers E m.padToMaxShape m.dimToPack
    g.reduceOption g'.reduceOption) m.groups n.groups
  segments : Covers E m.padToMaxShape m.dimToPack m.segments.reduceOption n.segments.reduceOption
  oneRow : kind = .conversation → n.isCompact = true → n.len = 1

section Same

variable {kind : Kind} {m n m' n' : Media (Tensor δ ν)} {ms ns : List (Media (Tensor δ ν))}

/-- A conversation that is not in the legacy representation in either case has one row. -/
theorem Same.asTensor_eq (h : Same E kind m n) : n.asTensor E = m.asTensor E := by
  rw [asTensor, asTensor, h.dimToPack, h.padToMaxShape, ← h.segments.pack_eq]
  have hlen : n.segments.reduceOption.length = 0 ↔ m.segments.reduceOption.length = 0 := by
    rw [List.length_eq_zero_iff, List.length_eq_zero_iff, h.segments.eq_nil_iff]
  by_cases hzero : m.segments.reduceOption.length = 0
  · rw [if_pos hzero, if_pos (hlen.mpr hzero)]
  · rw [if_neg hzero, if_neg (mt hlen.mp hzero)]

theorem covers_flatten {gs gs' : List (List (Option (Tensor δ ν)))}
    (h : List.Forall₂ (fun g g' ↦ Covers E padToMaxShape dimToPack g.reduceOption g'.reduceOption)
      gs gs') :
    Covers E padToMaxShape dimToPack gs.flatten.reduceOption gs'.flatten.reduceOption := by
  induction h with
  | nil => exact .nil
  | cons hg _ ih =>
    rw [List.flatten_cons, List.flatten_cons, List.reduceOption_append, List.reduceOption_append]
    exact hg.append ih

theorem same_rows (hdim : n.dimToPack = m.dimToPack) (hpad : n.padToMaxShape = m.padToMaxShape)
    (hlegacy : n.isCompact = false → n = m) (hcompact : m.isCompact = true → n.isCompact = true)
    (hrows : List.Forall₂ (fun g g' ↦ Covers E m.padToMaxShape m.dimToPack g.reduceOption
      g'.reduceOption) m.groups n.groups) : Same E .rows m n where
  dimToPack := hdim
  padToMaxShape := hpad
  legacy := hlegacy
  compact := hcompact
  rows _ := hrows
  segments := covers_flatten hrows
  oneRow h := nomatch h

theorem covers_self (m : Media (Tensor δ ν)) : List.Forall₂ (fun g g' ↦
    Covers E padToMaxShape dimToPack g.reduceOption g'.reduceOption) m.groups m.groups :=
  List.forall₂_same.mpr fun _ _ ↦ .refl _

theorem same_self (m : Media (Tensor δ ν)) : Same E .rows m m :=
  same_rows rfl rfl (fun _ ↦ rfl) id (covers_self m)

theorem same_enableDeduplication (m : Media (Tensor δ ν)) :
    Same E .rows m m.enableDeduplication :=
  same_rows rfl rfl (fun h ↦ nomatch h) (fun _ ↦ rfl) (covers_self m)

theorem Same.rows_of_len (h : Same E kind m n) (hm : m.len = 1) (hn : n.len = 1) :
    List.Forall₂ (fun g g' ↦ Covers E m.padToMaxShape m.dimToPack g.reduceOption g'.reduceOption)
      m.groups n.groups := by
  obtain ⟨g, hg⟩ := List.length_eq_one_iff.mp hm
  obtain ⟨g', hg'⟩ := List.length_eq_one_iff.mp hn
  have hsegments := h.segments
  rw [Media.segments, Media.segments, hg, hg', List.flatten_singleton,
    List.flatten_singleton] at hsegments
  rw [hg, hg']
  exact .cons hsegments .nil

theorem commonSettings_same (h : List.Forall₂ (fun m n ↦ ∃ kind, Same E kind m n) ms ns) :
    commonSettings ns = commonSettings ms := by
  have hdim : ns.map (·.dimToPack) = ms.map (·.dimToPack) := by
    induction h with
    | nil => rfl
    | cons hm _ ih => rw [List.map_cons, List.map_cons, ih, hm.choose_spec.dimToPack]
  have hpad : ns.map (·.padToMaxShape) = ms.map (·.padToMaxShape) := by
    clear hdim
    induction h with
    | nil => rfl
    | cons hm _ ih => rw [List.map_cons, List.map_cons, ih, hm.choose_spec.padToMaxShape]
  rw [commonSettings, commonSettings, hdim, hpad]

theorem eq_of_legacy (h : List.Forall₂ (fun m n ↦ ∃ kind, Same E kind m n) ms ns)
    (hns : ns.any isCompact = false) : ns = ms := by
  induction h with
  | nil => rfl
  | cons hm _ ih =>
    obtain ⟨hhead, hrest⟩ := Bool.or_eq_false_iff.mp hns
    rw [ih hrest, hm.choose_spec.legacy hhead]

/-- What values that are put together have in common is what each of them has. -/
theorem settings_of_mem {ms : List (Media (Tensor δ ν))} (h : commonSettings ms =
    .ok (dimToPack, padToMaxShape)) (hm : m ∈ ms) :
    m.dimToPack = dimToPack ∧ m.padToMaxShape = padToMaxShape := by
  rw [commonSettings] at h
  split at h
  · rename_i d hd
    split at h
    · rename_i b hb
      obtain ⟨rfl, rfl⟩ := Prod.mk.inj (Except.ok.inj h)
      refine ⟨?_, ?_⟩
      · have hmem : m.dimToPack ∈ (ms.map (·.dimToPack)).dedup :=
          List.mem_dedup.mpr (List.mem_map_of_mem hm)
        rw [hd] at hmem
        exact List.mem_singleton.mp hmem
      · have hmem : m.padToMaxShape ∈ (ms.map (·.padToMaxShape)).dedup :=
          List.mem_dedup.mpr (List.mem_map_of_mem hm)
        rw [hb] at hmem
        exact List.mem_singleton.mp hmem
    · cases h
  · cases h

theorem covers_flatMap_groups (h : List.Forall₂ (fun m n ↦ List.Forall₂ (fun g g' ↦
      Covers E m.padToMaxShape m.dimToPack g.reduceOption g'.reduceOption) m.groups n.groups) ms ns)
    (hsettings : ∀ m ∈ ms, m.dimToPack = dimToPack ∧ m.padToMaxShape = padToMaxShape) :
    List.Forall₂ (fun g g' ↦ Covers E padToMaxShape dimToPack g.reduceOption g'.reduceOption)
      (ms.flatMap groups) (ns.flatMap groups) := by
  induction h with
  | nil => exact .nil
  | cons hm _ ih =>
    obtain ⟨⟨rfl, rfl⟩, hrest⟩ := List.forall_mem_cons.mp hsettings
    rw [List.flatMap_cons, List.flatMap_cons]
    exact List.rel_append hm (ih hrest)

theorem covers_flatMap_segments (h : List.Forall₂ (fun m n ↦ ∃ kind, Same E kind m n) ms ns)
    (hsettings : ∀ m ∈ ms, m.dimToPack = dimToPack ∧ m.padToMaxShape = padToMaxShape) :
    Covers E padToMaxShape dimToPack (ms.flatMap segments).reduceOption
      (ns.flatMap segments).reduceOption := by
  induction h with
  | nil => exact .nil
  | cons hm _ ih =>
    obtain ⟨⟨rfl, rfl⟩, hrest⟩ := List.forall_mem_cons.mp hsettings
    rw [List.flatMap_cons, List.flatMap_cons, List.reduceOption_append, List.reduceOption_append]
    exact hm.choose_spec.segments.append (ih hrest)

theorem concat_of_compact (hcompact : ns.any isCompact = true)
    (hsettings : commonSettings ns = .ok (dimToPack, padToMaxShape)) :
    Media.concat ns = .ok ⟨dimToPack, padToMaxShape, .compact (ns.flatMap groups)⟩ := by
  rw [Media.concat, hsettings]
  simp only [bind, Except.bind, hcompact, if_true]

/-- Values put together where some of the values are not in the legacy representation. -/
theorem same_of_compact {m : Media (Tensor δ ν)} {rows : List (List (Option (Tensor δ ν)))}
    (h : List.Forall₂ (fun g g' ↦ Covers E m.padToMaxShape m.dimToPack g.reduceOption
      g'.reduceOption) m.groups rows) :
    Same E .rows m ⟨m.dimToPack, m.padToMaxShape, .compact rows⟩ :=
  same_rows rfl rfl (fun h ↦ nomatch h) (fun _ ↦ rfl) h

theorem Same.concat (h : List.Forall₂ (Same E .rows) ms ns) (hm : Media.concat ms = .ok m) :
    ∃ n, Media.concat ns = .ok n ∧ Same E .rows m n := by
  have hsame : List.Forall₂ (fun m n ↦ ∃ kind, Same E kind m n) ms ns := h.imp fun _ _ h ↦ ⟨_, h⟩
  obtain ⟨hsettings, hgroups, -⟩ := concat_ok hm
  cases hcompact : ns.any isCompact with
  | false =>
    rw [eq_of_legacy hsame hcompact]
    exact ⟨m, hm, same_self m⟩
  | true =>
    refine ⟨_, concat_of_compact hcompact ((commonSettings_same hsame).trans hsettings), ?_⟩
    apply same_of_compact
    rw [hgroups]
    exact covers_flatMap_groups (h.imp fun _ _ h ↦ h.rows rfl)
      fun m hm ↦ settings_of_mem hsettings hm

theorem Same.mergeSegments (h : List.Forall₂ (fun m n ↦ ∃ kind, Same E kind m n) ms ns)
    (hm : Media.mergeSegments ms = .ok m) :
    ∃ n, Media.mergeSegments ns = .ok n ∧ Same E .conversation m n := by
  obtain ⟨hsettings, hsegments, hsame, hlen⟩ := mergeSegments_ok hm
  cases hcompact : ns.any isCompact with
  | false =>
    rw [eq_of_legacy h hcompact]
    exact ⟨m, hm, rfl, rfl, fun _ ↦ rfl, id, (nomatch ·), .refl _, fun _ h ↦ hlen h⟩
  | true =>
    have hn : Media.mergeSegments ns =
        .ok ⟨m.dimToPack, m.padToMaxShape, .compact [ns.flatMap Media.segments]⟩ := by
      rw [Media.mergeSegments, if_pos hcompact, commonSettings_same h, hsettings]
      rfl
    refine ⟨_, hn, rfl, rfl, (nomatch ·), fun _ ↦ rfl, (nomatch ·), ?_, fun _ _ ↦ rfl⟩
    rw [hsegments]
    show Covers E _ _ _ ([ns.flatMap Media.segments].flatten).reduceOption
    rw [List.flatten_singleton]
    exact covers_flatMap_segments h fun m hm ↦ settings_of_mem hsettings hm

theorem Same.covers_asTensor (h : Same E kind m n) (hdtype : Uniform m.segments.reduceOption)
    {t : Option (Tensor δ ν)} (ht : m.asTensor E = .ok t) :
    Covers E m.padToMaxShape m.dimToPack [t].reduceOption n.segments.reduceOption := by
  rw [asTensor] at ht
  split at ht
  · rename_i hzero
    obtain rfl := Except.ok.inj ht
    have hnil := List.length_eq_zero_iff.mp hzero
    rw [h.segments.eq_nil_iff.mp hnil]
    exact .nil
  · rename_i hne
    split at ht
    · rename_i y hy
      obtain rfl := Except.ok.inj ht
      exact h.segments.packed (mt List.length_eq_zero_iff.mpr hne) hdtype hy
    · cases ht

theorem covers_flattened (h : List.Forall₂ (fun m n ↦ ∃ kind, Same E kind m n) ms ns)
    (hsettings : ∀ m ∈ ms, m.dimToPack = dimToPack ∧ m.padToMaxShape = padToMaxShape)
    (hdtype : ∀ m ∈ ms, Uniform m.segments.reduceOption) (hlen : ∀ n ∈ ns, n.len = 1)
    {tensors : List (Option (Tensor δ ν))} (htensors : ms.mapM (asTensor E) = .ok tensors) :
    List.Forall₂ (fun g g' ↦ Covers E padToMaxShape dimToPack g.reduceOption g'.reduceOption)
      (tensors.map ([·])) (ns.flatMap groups) := by
  induction h generalizing tensors with
  | nil =>
    obtain rfl := Except.ok.inj htensors
    exact .nil
  | @cons m n ms ns hm _ ih =>
    obtain ⟨kind, hm⟩ := hm
    obtain ⟨⟨rfl, rfl⟩, hrest⟩ := List.forall_mem_cons.mp hsettings
    obtain ⟨huniform, hdtype⟩ := List.forall_mem_cons.mp hdtype
    obtain ⟨hone, hlen⟩ := List.forall_mem_cons.mp hlen
    obtain ⟨g, hg⟩ := List.length_eq_one_iff.mp hone
    rw [List.mapM_cons] at htensors
    cases ht : m.asTensor E with
    | error e =>
      rw [ht] at htensors
      cases htensors
    | ok t =>
      rw [ht] at htensors
      cases hts : ms.mapM (asTensor E) with
      | error e =>
        rw [hts] at htensors
        cases htensors
      | ok ts =>
        rw [hts] at htensors
        obtain rfl := Except.ok.inj htensors
        have hcovers := hm.covers_asTensor huniform ht
        rw [segments, hg, List.flatten_singleton] at hcovers
        rw [List.map_cons, List.flatMap_cons, hg]
        exact .cons hcovers (ih hrest hdtype hlen hts)

/-- A batch of conversations: where the representations are mixed it is refused. -/
theorem Same.flattenedConcat (h : List.Forall₂ (fun m n ↦ ∃ kind, Same E kind m n) ms ns)
    (hdtype : ∀ m ∈ ms, Uniform m.segments.reduceOption)
    (hm : Media.flattenedConcat E ms = .ok m) :
    (Media.flattenedConcat E ns = .error .oneLogicalRow ∧ (∃ n ∈ ns, n.isCompact = true) ∧
      ∃ n ∈ ns, n.len ≠ 1) ∨
    ∃ n, Media.flattenedConcat E ns = .ok n ∧ Same E .rows m n := by
  cases hcompact : ns.any isCompact with
  | false =>
    rw [eq_of_legacy h hcompact]
    exact .inr ⟨m, hm, same_self m⟩
  | true =>
    rw [Media.flattenedConcat] at hm
    cases hsettings : commonSettings ms with
    | error e =>
      rw [hsettings] at hm
      cases hm
    | ok settings =>
      obtain ⟨dimToPack, padToMaxShape⟩ := settings
      have hsettings' := (commonSettings_same h).trans hsettings
      have hmem : ∀ m ∈ ms, m.dimToPack = dimToPack ∧ m.padToMaxShape = padToMaxShape :=
        fun m hm ↦ settings_of_mem hsettings hm
      rw [hsettings] at hm
      simp only [bind, Except.bind] at hm
      by_cases hall : ns.all (·.len = 1) = true
      · have hlen : ∀ n ∈ ns, n.len = 1 := fun n hn ↦ by simpa using List.all_eq_true.mp hall n hn
        have hn : Media.flattenedConcat E ns =
            .ok ⟨dimToPack, padToMaxShape, .compact (ns.flatMap groups)⟩ := by
          rw [Media.flattenedConcat, hsettings']
          simp only [bind, Except.bind, hcompact, if_true, hall]
          exact concat_of_compact hcompact hsettings'
        refine .inr ⟨_, hn, ?_⟩
        cases hoff : ms.any isCompact with
        | true =>
          simp only [hoff, if_true] at hm
          split at hm
          · rename_i hone
            obtain ⟨hsame, hgroups, -⟩ := concat_ok hm
            obtain ⟨rfl, rfl⟩ := Prod.mk.inj (Except.ok.inj (hsettings.symm.trans hsame))
            apply same_of_compact
            rw [hgroups]
            refine covers_flatMap_groups ?_ hmem
            rw [List.forall₂_iff_zip] at h ⊢
            refine ⟨h.1, ?_⟩
            intro m n hmn
            obtain ⟨kind, hkind⟩ := h.2 hmn
            obtain ⟨hms, hns⟩ := List.of_mem_zip hmn
            exact hkind.rows_of_len (by simpa using List.all_eq_true.mp hone m hms) (hlen n hns)
          · cases hm
        | false =>
          simp only [hoff, Bool.false_eq_true, if_false] at hm
          cases htensors : ms.mapM (asTensor E) with
          | error e =>
            rw [htensors] at hm
            cases hm
          | ok tensors =>
            rw [htensors] at hm
            obtain rfl := ofTensors_ok hm
            exact same_of_compact (covers_flattened h hmem hdtype hlen htensors)
      · refine .inl ⟨?_, List.any_eq_true.mp hcompact, ?_⟩
        · rw [Media.flattenedConcat, hsettings']
          simp only [bind, Except.bind, hcompact, if_true, hall, Bool.false_eq_true, if_false]
        · by_contra! hnone
          exact hall (List.all_eq_true.mpr fun n hn ↦ by simpa using hnone n hn)

theorem Same.slice {idx : List ℤ} (h : Same E .rows m n) (hm : m.slice idx = .ok m') :
    ∃ n', n.slice idx = .ok n' ∧ Same E .rows m' n' := by
  cases hcompact : n.isCompact with
  | false =>
    rw [h.legacy hcompact]
    exact ⟨m', hm, same_self m'⟩
  | true =>
    obtain ⟨hdim, hpad, -, htaken⟩ := slice_ok hm
    obtain ⟨taken, htaken', hrows⟩ := mapM_takeRow_forall₂ (h.rows rfl) htaken
    refine ⟨_, slice_of_compact hcompact htaken', ?_⟩
    rw [h.dimToPack, h.padToMaxShape, ← hdim, ← hpad]
    apply same_of_compact
    rw [hdim, hpad]
    exact hrows

theorem Same.emptyRowsLike {numRows : ℤ} (h : Same E kind m n)
    (hm : m.emptyRowsLike numRows = .ok m') :
    ∃ n', n.emptyRowsLike numRows = .ok n' ∧ Same E .rows m' n' := by
  cases hcompact : n.isCompact with
  | false =>
    rw [h.legacy hcompact]
    exact ⟨m', hm, same_self m'⟩
  | true =>
    rw [Media.emptyRowsLike] at hm
    rw [Media.emptyRowsLike]
    split at hm
    · cases hm
    · rename_i hneg
      rw [if_neg hneg, if_pos (.inl hcompact), h.dimToPack, h.padToMaxShape]
      refine ⟨_, rfl, ?_⟩
      split at hm
      · obtain rfl := Except.ok.inj hm
        exact same_of_compact (covers_self _)
      · obtain rfl := Except.ok.inj hm
        apply same_of_compact
        show List.Forall₂ _ ((List.replicate numRows.toNat none).map ([·])) _
        rw [List.map_replicate]
        induction numRows.toNat with
        | zero => exact .nil
        | succ k ih =>
          rw [List.replicate_succ, List.replicate_succ]
          exact .cons .nil ih

theorem groups_map (f : Option (Tensor δ ν) → Option (Tensor δ ν)) (m : Media (Tensor δ ν)) :
    (m.map f).groups = m.groups.map (List.map f) := by
  obtain ⟨dimToPack, padToMaxShape, rows⟩ := m
  cases rows with
  | legacy tensors =>
    show (tensors.map f).map ([·]) = (tensors.map ([·])).map (List.map f)
    rw [List.map_map, List.map_map]
    rfl
  | compact rows => rfl

theorem isCompact_map (f : Option (Tensor δ ν) → Option (Tensor δ ν)) (m : Media (Tensor δ ν)) :
    (m.map f).isCompact = m.isCompact := by
  obtain ⟨dimToPack, padToMaxShape, rows⟩ := m
  cases rows <;> rfl

theorem Same.converted (dtype : δ) (h : Same E kind m n) :
    Same E kind (m.map (PackedTensor.converted E dtype))
      (n.map (PackedTensor.converted E dtype)) where
  dimToPack := h.dimToPack
  padToMaxShape := h.padToMaxShape
  legacy hn := by
    rw [isCompact_map] at hn
    rw [h.legacy hn]
  compact hm := by
    rw [isCompact_map] at hm ⊢
    exact h.compact hm
  rows hkind := by
    rw [groups_map, groups_map, List.forall₂_map_left_iff, List.forall₂_map_right_iff]
    refine (h.rows hkind).imp ?_
    intro g g' hg
    rw [reduceOption_map_converted, reduceOption_map_converted]
    exact hg.converted dtype
  segments := by
    rw [Media.segments, Media.segments, groups_map, groups_map, ← List.map_flatten,
      ← List.map_flatten, reduceOption_map_converted, reduceOption_map_converted]
    exact h.segments.converted dtype
  oneRow hkind hn := by
    rw [isCompact_map] at hn
    rw [len, groups_map, List.length_map]
    exact h.oneRow hkind hn

end Same

end Media

end NemoRL.Data
