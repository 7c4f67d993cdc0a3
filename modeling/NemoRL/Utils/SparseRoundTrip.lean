import Mathlib
import NemoRL.Foundations.Positions
import NemoRL.Utils.SparseCodec

namespace NemoRL.Utils.SparseCodec

open Foundations.Words Foundations.Positions

/-- The gaps before the locations, counted from the first that is free. -/
def gapsFrom : ℕ → List ℕ → List ℕ
  | _, [] => []
  | start, location :: rest => (location - start) :: gapsFrom (location + 1) rest

section Gaps

variable {f : ℤ → ℤ} {bits start : ℕ} {locations : List ℕ}

theorem length_gapsFrom (start : ℕ) (locations : List ℕ) :
    (gapsFrom start locations).length = locations.length := by
  induction locations generalizing start with
  | nil => rfl
  | cons location rest ih => simp [gapsFrom, ih]

theorem gapsFrom_lt {n : ℕ} (h : ∀ location ∈ locations, location < n) :
    ∀ gap ∈ gapsFrom start locations, gap < n := by
  induction locations generalizing start with
  | nil => simp [gapsFrom]
  | cons location rest ih =>
    obtain ⟨hfirst, hrest⟩ := List.forall_mem_cons.mp h
    exact List.forall_mem_cons.mpr ⟨(Nat.sub_le _ _).trans_lt hfirst, ih hrest⟩

theorem above_of_pairwise {location : ℕ} {rest : List ℕ} (h : (location :: rest).Pairwise (· < ·)) :
    (∀ l ∈ rest, location + 1 ≤ l) ∧ rest.Pairwise (· < ·) := by
  obtain ⟨hfirst, hrest⟩ := List.pairwise_cons.mp h
  exact ⟨fun l hl ↦ hfirst l hl, hrest⟩

theorem locationDeltas_eq (hf : ∀ x, Fits 64 x → f x = x) (hsorted : locations.Pairwise (· < ·))
    (hlow : ∀ l ∈ locations, start ≤ l) (hhigh : ∀ l ∈ locations, l + 1 < 2 ^ 63) :
    locationDeltas f ((start : ℤ) - 1) locations =
      (gapsFrom start locations).map fun gap : ℕ ↦ (gap : ℤ) := by
  induction locations generalizing start with
  | nil => rfl
  | cons location rest ih =>
    obtain ⟨hlow₁, hlow₂⟩ := List.forall_mem_cons.mp hlow
    obtain ⟨hhigh₁, hhigh₂⟩ := List.forall_mem_cons.mp hhigh
    obtain ⟨habove, hrest⟩ := above_of_pairwise hsorted
    have hcast : ((location - start : ℕ) : ℤ) = location - start := Nat.cast_sub hlow₁
    have hdiff : f ((location : ℤ) - (start - 1)) = location - start + 1 := by
      rw [hf]
      · ring
      · simp only [Fits]
        omega
    have hgap : f (f ((location : ℤ) - (start - 1)) - 1) = ((location - start : ℕ) : ℤ) := by
      rw [hdiff, hcast, hf]
      · ring
      · simp only [Fits]
        omega
    have hnext : (location : ℤ) = ((location + 1 : ℕ) : ℤ) - 1 := by
      push_cast
      ring
    rw [locationDeltas, gapsFrom, List.map_cons, hgap, ← ih hrest habove hhigh₂, ← hnext]

theorem cumsum_gapsFrom (hf : ∀ x, Fits bits x → f x = x) (hsorted : locations.Pairwise (· < ·))
    (hlow : ∀ l ∈ locations, start ≤ l) (hhigh : ∀ l ∈ locations, l + 1 < 2 ^ (bits - 1)) :
    cumsum f start ((gapsFrom start locations).map fun gap : ℕ ↦ (gap : ℤ) + 1) =
      locations.map fun l : ℕ ↦ (l : ℤ) + 1 := by
  induction locations generalizing start with
  | nil => rfl
  | cons location rest ih =>
    obtain ⟨hlow₁, hlow₂⟩ := List.forall_mem_cons.mp hlow
    obtain ⟨hhigh₁, hhigh₂⟩ := List.forall_mem_cons.mp hhigh
    obtain ⟨habove, hrest⟩ := above_of_pairwise hsorted
    have hsum : (start : ℤ) + (((location - start : ℕ) : ℤ) + 1) = (location + 1 : ℕ) := by
      omega
    have hfits : Fits bits ((location + 1 : ℕ) : ℤ) := by
      refine ⟨?_, by exact_mod_cast hhigh₁⟩
      have hpos : (0 : ℤ) ≤ 2 ^ (bits - 1) := by positivity
      omega
    rw [gapsFrom, List.map_cons, cumsum, hsum, hf _ hfits, ih hrest habove hhigh₂, List.map_cons]
    push_cast
    rfl

theorem decodeSteps_gapsFrom (hf : ∀ x, Fits bits x → f x = x)
    (hsorted : locations.Pairwise (· < ·)) (hhigh : ∀ l ∈ locations, l + 1 < 2 ^ (bits - 1)) :
    decodeSteps f (gapsFrom 0 locations) =
      ⟨(gapsFrom 0 locations).map fun gap : ℕ ↦ (gap : ℤ),
        (gapsFrom 0 locations).map fun gap : ℕ ↦ (gap : ℤ) + 1,
        locations.map fun l : ℕ ↦ (l : ℤ) + 1, locations.map fun l : ℕ ↦ (l : ℤ)⟩ := by
  have hpos : (0 : ℤ) ≤ 2 ^ (bits - 1) := by positivity
  have hnat : ∀ n : ℕ, n < 2 ^ (bits - 1) → Fits bits n := by
    intro n hn
    exact ⟨by omega, by exact_mod_cast hn⟩
  have hgaps : ∀ gap ∈ gapsFrom 0 locations, gap + 1 < 2 ^ (bits - 1) := by
    intro gap hgap
    have hlt : gap < 2 ^ (bits - 1) - 1 := gapsFrom_lt (fun l hl ↦ by
      have := hhigh l hl
      omega) gap hgap
    omega
  have hwiden : (gapsFrom 0 locations).map (fun gap : ℕ ↦ f gap) =
      (gapsFrom 0 locations).map fun gap : ℕ ↦ (gap : ℤ) := by
    refine List.map_congr_left fun gap hgap ↦ hf _ (hnat gap ?_)
    have := hgaps gap hgap
    omega
  have hincrement : ((gapsFrom 0 locations).map fun gap : ℕ ↦ (gap : ℤ)).map (fun x ↦ f (x + 1)) =
      (gapsFrom 0 locations).map fun gap : ℕ ↦ (gap : ℤ) + 1 := by
    rw [List.map_map]
    refine List.map_congr_left fun gap hgap ↦ ?_
    exact hf _ (by exact_mod_cast hnat _ (hgaps gap hgap))
  have hsum := cumsum_gapsFrom hf hsorted (fun l _ ↦ Nat.zero_le l) hhigh
  have hlast : (locations.map fun l : ℕ ↦ (l : ℤ) + 1).map (fun x ↦ f (x - 1)) =
      locations.map fun l : ℕ ↦ (l : ℤ) := by
    rw [List.map_map]
    refine List.map_congr_left fun l hl ↦ ?_
    have hl' := hhigh l hl
    simp only [Function.comp_apply, add_sub_cancel_right]
    exact hf _ (hnat l (by omega))
  simp only [decodeSteps, hwiden, hincrement]
  rw [Nat.cast_zero] at hsum
  rw [hsum, hlast]

theorem deltaWidth_cases (deltas : List ℤ) :
    deltaWidth deltas = 2 ∨ deltaWidth deltas = 4 ∨ deltaWidth deltas = 8 := by
  simp only [deltaWidth]
  split_ifs <;> simp

theorem lt_deltaWidth {deltas : List ℤ} (h : ∀ x ∈ deltas, x < 2 ^ 63) :
    ∀ x ∈ deltas, x < 256 ^ deltaWidth deltas := by
  intro x hx
  have hmax := le_foldl_max (deltas.headD 0) hx
  have hbound := h x hx
  simp only [deltaWidth]
  split_ifs with hsmall hmedium
  · omega
  · omega
  · omega

theorem encodeExplicitLocations_eq (hsorted : locations.Pairwise (· < ·))
    (hhigh : ∀ l ∈ locations, l + 1 < 2 ^ 63) :
    ∃ width, (width = 2 ∨ width = 4 ∨ width = 8) ∧
      encodeExplicitLocations locations = (gapsFrom 0 locations).flatMap (split width) ∧
      ∀ gap ∈ gapsFrom 0 locations, gap < 256 ^ width := by
  have hdeltas : locationDeltas (wrap 64) (-1) locations =
      (gapsFrom 0 locations).map fun gap : ℕ ↦ (gap : ℤ) := by
    have h : locationDeltas (wrap 64) (((0 : ℕ) : ℤ) - 1) locations =
        (gapsFrom 0 locations).map fun gap : ℕ ↦ (gap : ℤ) :=
      locationDeltas_eq (fun x hx ↦ wrap_of_fits (by omega) hx) hsorted
        (fun l _ ↦ Nat.zero_le l) hhigh
    simpa using h
  set deltas := locationDeltas (wrap 64) (-1) locations with hdef
  have hbound : ∀ x ∈ deltas, x < 2 ^ 63 := by
    intro x hx
    rw [hdeltas] at hx
    obtain ⟨gap, hgap, rfl⟩ := List.mem_map.mp hx
    have hlt : gap < 2 ^ 63 := gapsFrom_lt (fun l hl ↦ by
      have := hhigh l hl
      omega) gap hgap
    exact_mod_cast hlt
  have hfit : ∀ gap ∈ gapsFrom 0 locations, gap < 256 ^ deltaWidth deltas := by
    intro gap hgap
    have hmem : (gap : ℤ) ∈ deltas := hdeltas ▸ List.mem_map_of_mem hgap
    exact_mod_cast lt_deltaWidth hbound _ hmem
  refine ⟨deltaWidth deltas, deltaWidth_cases deltas, ?_, hfit⟩
  simp only [encodeExplicitLocations, ← hdef]
  conv_lhs => rw [hdeltas]
  rw [List.flatMap_map]
  refine List.flatMap_congr fun gap hgap ↦ ?_
  rw [← hdeltas]
  have hmod : (gap : ℤ) % 256 ^ deltaWidth deltas = gap :=
    Int.emod_eq_of_lt (by positivity) (by exact_mod_cast hfit gap hgap)
  rw [hmod, Int.toNat_natCast]

end Gaps

variable {α : Type}

/-- An info as the sender makes it: locations in order, below the element count,
with a value each. -/
def SparseInfo.Valid (info : SparseInfo α) : Prop :=
  info.locations ≠ [] ∧ info.locations.Pairwise (· < ·) ∧
    (∀ l ∈ info.locations, l < info.shape.prod) ∧ info.shape.prod < 2 ^ 63 ∧
    info.values.data.length = info.locations.length

/-- One payload is the other with more behind its indices and behind its groups. -/
def Grows (p p' : TensorPayload α) : Prop :=
  (∃ more, p'.indices = p.indices ++ more) ∧
    ∀ (i : ℕ) (group : Values α), p.values[i]? = some group →
      ∃ more, p'.values[i]? = some { group with data := group.data ++ more }

def HoldsValues (p : TensorPayload α) (group start stop : ℕ) (values : Values α) : Prop :=
  ∃ whole, p.values[group]? = some whole ∧ whole.dtype = values.dtype ∧
    Slice whole.data start stop values.data

/-- What an item says of a payload is the info it was made from. -/
structure Describes (p : TensorPayload α) (item : SparseItem) (info : SparseInfo α) : Prop where
  name : item.name = info.name
  shape : item.shape = info.shape
  dtype : item.dtype = info.dtype.name
  operation : item.operation = info.operation
  values : HoldsValues p item.valueGroup item.valueStart item.valueEnd info.values
  located : match item.encoding with
    | .range start => info.locations = List.range' start info.locations.length
    | .deltas => Slice p.indices item.indexStart item.indexEnd
        (encodeExplicitLocations info.locations)

section Growth

variable {p p' p'' : TensorPayload α}

theorem Grows.refl (p : TensorPayload α) : Grows p p :=
  ⟨⟨[], by simp⟩, fun _ group h ↦ ⟨[], by simpa using h⟩⟩

theorem Grows.trans (h : Grows p p') (h' : Grows p' p'') : Grows p p'' := by
  obtain ⟨⟨more, hmore⟩, hvalues⟩ := h
  obtain ⟨⟨more', hmore'⟩, hvalues'⟩ := h'
  refine ⟨⟨more ++ more', by rw [hmore', hmore, List.append_assoc]⟩, fun i group hi ↦ ?_⟩
  obtain ⟨tail, htail⟩ := hvalues i group hi
  obtain ⟨tail', htail'⟩ := hvalues' i _ htail
  exact ⟨tail ++ tail', by simpa using htail'⟩

theorem HoldsValues.mono {group start stop : ℕ} {values : Values α}
    (h : HoldsValues p group start stop values) (hgrows : Grows p p') :
    HoldsValues p' group start stop values := by
  obtain ⟨whole, hget, hdtype, hslice⟩ := h
  obtain ⟨more, hmore⟩ := hgrows.2 group whole hget
  exact ⟨_, hmore, hdtype, hslice.append_right more⟩

theorem Describes.mono {item : SparseItem} {info : SparseInfo α} (h : Describes p item info)
    (hgrows : Grows p p') : Describes p' item info := by
  refine ⟨h.name, h.shape, h.dtype, h.operation, h.values.mono hgrows, ?_⟩
  have hlocated := h.located
  cases hencoding : item.encoding with
  | range start =>
    rw [hencoding] at hlocated
    exact hlocated
  | deltas =>
    rw [hencoding] at hlocated
    obtain ⟨more, hmore⟩ := hgrows.1
    rw [hmore]
    exact hlocated.append_right more

end Growth

/-- The counters of a builder are those of what it has gathered, and a dtype
leads to a group of that dtype. -/
structure WellBuilt (b : TensorPayloadBuilder α) : Prop where
  offset : b.indexOffset = b.finish.indices.length
  groups : ∀ dtype group, b.valueGroupByDtype dtype = some group →
    ∃ whole, b.finish.values[group]? = some whole ∧ whole.dtype = dtype
  offsets : b.valueOffsets = b.finish.values.map fun whole ↦ whole.data.length

section Building

variable {b : TensorPayloadBuilder α}

theorem wellBuilt_empty : WellBuilt (TensorPayloadBuilder.empty : TensorPayloadBuilder α) :=
  ⟨rfl, fun _ _ h ↦ absurd h (by simp [TensorPayloadBuilder.empty]), rfl⟩

theorem addLocations_spec (h : WellBuilt b) (locations : List UInt8) :
    WellBuilt (b.addLocations locations).1 ∧
      (b.addLocations locations).1.metadata = b.metadata ∧
      Grows b.finish (b.addLocations locations).1.finish ∧
      Slice (b.addLocations locations).1.finish.indices (b.addLocations locations).2.1
        (b.addLocations locations).2.2 locations := by
  have hoffset : b.indexOffset = b.locations.flatten.length := h.offset
  have hslice : Slice (b.locations.flatten ++ locations) b.indexOffset
      (b.indexOffset + locations.length) locations := by
    rw [hoffset]
    exact slice_append _ _
  by_cases hempty : locations.length = 0
  · have hadd : b.addLocations locations = (b, b.indexOffset, b.indexOffset) :=
      if_neg (not_not.mpr hempty)
    rw [hadd]
    obtain rfl : locations = [] := List.length_eq_zero_iff.mp hempty
    rw [List.append_nil] at hslice
    exact ⟨h, rfl, Grows.refl _, hslice⟩
  · have hadd : b.addLocations locations =
        ({ b with
            locations := b.locations ++ [locations]
            indexOffset := b.indexOffset + locations.length }, b.indexOffset,
          b.indexOffset + locations.length) := if_pos hempty
    have hindices : (b.locations ++ [locations]).flatten = b.locations.flatten ++ locations := by
      simp
    rw [hadd]
    refine ⟨⟨?_, h.groups, h.offsets⟩, rfl, ⟨⟨locations, hindices⟩, (Grows.refl b.finish).2⟩, ?_⟩
    · simp only [TensorPayloadBuilder.finish, hindices, List.length_append, hoffset]
    · simp only [TensorPayloadBuilder.finish, hindices]
      exact hslice

theorem addValues_new (h : WellBuilt b) {values : Values α}
    (hgroup : b.valueGroupByDtype values.dtype = none) :
    WellBuilt (b.addValues values).1 ∧ (b.addValues values).1.metadata = b.metadata ∧
      Grows b.finish (b.addValues values).1.finish ∧
      HoldsValues (b.addValues values).1.finish (b.addValues values).2.1
        (b.addValues values).2.2.1 (b.addValues values).2.2.2 values := by
  have hadd : b.addValues values =
      ({ b with
          valueGroupByDtype :=
            Function.update b.valueGroupByDtype values.dtype (some b.valueParts.length)
          valueParts := b.valueParts ++ [(values, [])]
          valueOffsets := b.valueOffsets ++ [values.data.length] }, b.valueParts.length, 0,
        values.data.length) := by
    rw [TensorPayloadBuilder.addValues, hgroup]
  have hvalues : (b.valueParts ++ [(values, [])]).map cat = b.finish.values ++ [values] := by
    simp [cat, TensorPayloadBuilder.finish]
  have hlast : (b.finish.values ++ [values])[b.valueParts.length]? = some values := by
    simp [TensorPayloadBuilder.finish]
  have hkept : ∀ (i : ℕ) (group : Values α), b.finish.values[i]? = some group →
      (b.finish.values ++ [values])[i]? = some group := by
    intro i group hi
    rw [List.getElem?_append_left (List.getElem?_eq_some_iff.mp hi).1]
    exact hi
  rw [hadd]
  refine ⟨⟨h.offset, fun dtype group hd ↦ ?_, ?_⟩, rfl, ⟨⟨[], (List.append_nil _).symm⟩,
    fun i group hi ↦ ⟨[], ?_⟩⟩, values, ?_, rfl, [], [], by simp, rfl, by simp⟩
  · replace hd : Function.update b.valueGroupByDtype values.dtype (some b.valueParts.length) dtype =
        some group := hd
    simp only [TensorPayloadBuilder.finish, hvalues]
    by_cases heq : dtype = values.dtype
    · subst heq
      rw [Function.update_self] at hd
      obtain rfl := Option.some.inj hd
      exact ⟨values, hlast, rfl⟩
    · rw [Function.update_of_ne heq] at hd
      obtain ⟨whole, hwhole, hdtype⟩ := h.groups dtype group hd
      exact ⟨whole, hkept group whole hwhole, hdtype⟩
  · simp only [TensorPayloadBuilder.finish, hvalues, h.offsets, List.map_append, List.map_cons,
      List.map_nil]
  · simp only [TensorPayloadBuilder.finish, hvalues, List.append_nil]
    exact hkept i group hi
  · simp only [TensorPayloadBuilder.finish, hvalues]
    exact hlast

theorem addValues_old (h : WellBuilt b) {values : Values α} {group : ℕ}
    (hgroup : b.valueGroupByDtype values.dtype = some group) :
    WellBuilt (b.addValues values).1 ∧ (b.addValues values).1.metadata = b.metadata ∧
      Grows b.finish (b.addValues values).1.finish ∧
      HoldsValues (b.addValues values).1.finish (b.addValues values).2.1
        (b.addValues values).2.2.1 (b.addValues values).2.2.2 values := by
  obtain ⟨whole, hwhole, hdtype⟩ := h.groups _ _ hgroup
  have hstart : b.valueOffsets.getD group 0 = whole.data.length := by
    rw [h.offsets, List.getD_eq_getElem?_getD, List.getElem?_map, hwhole]
    rfl
  have hadd : b.addValues values =
      ({ b with
          valueParts := b.valueParts.modify group fun parts ↦ (parts.1, parts.2 ++ [values])
          valueOffsets := b.valueOffsets.modify group (· + values.data.length) }, group,
        whole.data.length, whole.data.length + values.data.length) := by
    simp only [TensorPayloadBuilder.addValues, hgroup, hstart]
  have hvalues : (b.valueParts.modify group fun parts ↦ (parts.1, parts.2 ++ [values])).map cat =
      b.finish.values.modify group fun v ↦ { v with data := v.data ++ values.data } :=
    map_modify_of_comm _ _ fun parts ↦ by simp [cat]
  have hthere : (b.finish.values.modify group fun v ↦ { v with data := v.data ++ values.data })[group]? =
      some { whole with data := whole.data ++ values.data } := by
    rw [List.getElem?_modify, hwhole]
    simp
  have hgrows : ∀ (i : ℕ) (old : Values α), b.finish.values[i]? = some old → ∃ more,
      (b.finish.values.modify group fun v ↦ { v with data := v.data ++ values.data })[i]? =
        some { old with data := old.data ++ more } := by
    intro i old hi
    rw [List.getElem?_modify, hi]
    by_cases heq : group = i
    · exact ⟨values.data, by simp [heq]⟩
    · exact ⟨[], by simp [heq]⟩
  rw [hadd]
  refine ⟨⟨h.offset, fun dtype i hd ↦ ?_, ?_⟩, rfl, ⟨⟨[], (List.append_nil _).symm⟩,
    fun i old hi ↦ ?_⟩, { whole with data := whole.data ++ values.data }, ?_, hdtype,
    slice_append _ _⟩
  · simp only [TensorPayloadBuilder.finish, hvalues]
    obtain ⟨old, hold, hd'⟩ := h.groups dtype i hd
    obtain ⟨more, hmore⟩ := hgrows i old hold
    exact ⟨_, hmore, hd'⟩
  · simp only [TensorPayloadBuilder.finish, hvalues, h.offsets]
    exact (map_modify_of_comm _ _ fun v ↦ by simp).symm
  · simp only [TensorPayloadBuilder.finish, hvalues]
    exact hgrows i old hi
  · simp only [TensorPayloadBuilder.finish, hvalues]
    exact hthere

theorem addValues_spec (h : WellBuilt b) (values : Values α) :
    WellBuilt (b.addValues values).1 ∧ (b.addValues values).1.metadata = b.metadata ∧
      Grows b.finish (b.addValues values).1.finish ∧
      HoldsValues (b.addValues values).1.finish (b.addValues values).2.1
        (b.addValues values).2.2.1 (b.addValues values).2.2.2 values := by
  cases hgroup : b.valueGroupByDtype values.dtype with
  | none => exact addValues_new h hgroup
  | some group => exact addValues_old h hgroup

theorem WellBuilt.withMetadata (h : WellBuilt b) (metadata : List SparseItem) :
    WellBuilt { b with metadata := metadata } := ⟨h.offset, h.groups, h.offsets⟩

/-- Sorted locations reach at least as far as there are of them, and are a range
where they reach no further. -/
theorem reach_of_sorted {first : ℕ} {rest : List ℕ} (h : (first :: rest).Pairwise (· < ·)) :
    first + rest.length ≤ rest.getLastD first ∧
      (rest.getLastD first = first + rest.length →
        first :: rest = List.range' first (rest.length + 1)) := by
  induction rest generalizing first with
  | nil => simp
  | cons second rest ih =>
    obtain ⟨habove, hrest⟩ := above_of_pairwise h
    obtain ⟨hreach, hrange⟩ := ih hrest
    have hsecond := habove second (by simp)
    simp only [List.getLastD_cons, List.length_cons]
    refine ⟨by omega, fun hlast ↦ ?_⟩
    obtain rfl : second = first + 1 := by omega
    rw [hrange (by omega)]
    rfl

/-- Where the locations are given, the values follow and the item describes the info. -/
theorem encode_located {b₁ : TensorPayloadBuilder α} (h : WellBuilt b₁)
    (hgrows : Grows b.finish b₁.finish) (hmetadata : b₁.metadata = b.metadata)
    (info : SparseInfo α) {indexStart indexEnd : ℕ} {encoding : IndexEncoding}
    (hlocated : match encoding with
      | .range start => info.locations = List.range' start info.locations.length
      | .deltas => Slice b₁.finish.indices indexStart indexEnd
          (encodeExplicitLocations info.locations)) :
    ∃ b' item, (let (b, valueGroup, valueStart, valueEnd) := b₁.addValues info.values
        some { b with
          metadata := b.metadata ++ [⟨info.name, info.shape, info.dtype.name, info.operation,
            indexStart, indexEnd, valueGroup, valueStart, valueEnd, encoding, none⟩] }) = some b' ∧
      WellBuilt b' ∧ Grows b.finish b'.finish ∧ b'.metadata = b.metadata ++ [item] ∧
      Describes b'.finish item info := by
  have hspec := addValues_spec h info.values
  obtain ⟨⟨b₂, valueGroup, valueStart, valueEnd⟩, hadd⟩ : ∃ added, b₁.addValues info.values = added :=
    ⟨_, rfl⟩
  rw [hadd] at hspec ⊢
  obtain ⟨hwell, hmeta, hgrows', hvalues⟩ := hspec
  refine ⟨_, ⟨info.name, info.shape, info.dtype.name, info.operation, indexStart, indexEnd,
    valueGroup, valueStart, valueEnd, encoding, none⟩, rfl, hwell.withMetadata _,
    hgrows.trans hgrows', ?_, rfl, rfl, rfl, rfl, hvalues, ?_⟩
  · rw [← hmetadata, ← hmeta]
  · cases encoding with
    | range start => exact hlocated
    | deltas =>
      obtain ⟨more, hmore⟩ := hgrows'.1
      have hslice := hlocated.append_right more
      rw [← hmore] at hslice
      exact hslice

theorem encodeSparseInfo_spec (h : WellBuilt b) {info : SparseInfo α} (hvalid : info.Valid) :
    ∃ b' item, encodeSparseInfo b info = some b' ∧ WellBuilt b' ∧ Grows b.finish b'.finish ∧
      b'.metadata = b.metadata ++ [item] ∧ Describes b'.finish item info := by
  obtain ⟨hne, hsorted, hbound, hnumel, hcount⟩ := hvalid
  cases hlocations : info.locations with
  | nil => exact absurd hlocations hne
  | cons first rest =>
    rw [hlocations] at hsorted hbound hcount
    obtain ⟨hreach, hrange⟩ := reach_of_sorted hsorted
    have hlast : rest.getLastD first < info.shape.prod := by
      refine hbound _ ?_
      rw [List.getLastD_eq_getLast?]
      cases hget : rest.getLast? with
      | none => simp
      | some last => exact List.mem_cons_of_mem _ (List.mem_of_getLast? hget)
    have hspan : wrap 64 (wrap 64 (((first :: rest).getLastD 0 : ℕ) - first) + 1) =
        ((rest.getLastD first - first + 1 : ℕ) : ℤ) := by
      have hcast : (((rest.getLastD first : ℕ) : ℤ) - first) = ((rest.getLastD first - first : ℕ) : ℤ) :=
        (Nat.cast_sub (by omega)).symm
      have hfits : ∀ n : ℕ, n < 2 ^ 63 → Fits 64 (n : ℤ) := by
        intro n hn
        simp only [Fits]
        omega
      rw [List.getLastD_cons, hcast, wrap_of_fits (by omega) (hfits _ (by omega))]
      exact_mod_cast wrap_of_fits (by omega) (hfits (rest.getLastD first - first + 1) (by omega))
    simp only [encodeSparseInfo, hlocations, hspan]
    by_cases hisRange : info.values.data.length = 1 ∨
        ((rest.getLastD first - first + 1 : ℕ) : ℤ) = info.values.data.length
    · rw [if_pos hisRange]
      refine encode_located h (Grows.refl _) rfl info ?_
      rw [hlocations]
      refine hrange ?_
      rw [hcount, List.length_cons] at hisRange
      rcases hisRange with hone | hspan
      · obtain rfl : rest = [] := List.length_eq_zero_iff.mp (by omega)
        simp
      · omega
    · rw [if_neg hisRange]
      obtain ⟨hwell, hmeta, hgrows, hslice⟩ :=
        addLocations_spec h (encodeExplicitLocations (first :: rest))
      refine encode_located hwell hgrows hmeta info ?_
      rw [hlocations]
      exact hslice

theorem foldlM_encode (h : WellBuilt b) {infos : List (SparseInfo α)}
    (hvalid : ∀ info ∈ infos, info.Valid) :
    ∃ b' items, infos.foldlM encodeSparseInfo b = some b' ∧ WellBuilt b' ∧
      Grows b.finish b'.finish ∧ b'.metadata = b.metadata ++ items ∧
      List.Forall₂ (Describes b'.finish) items infos := by
  induction infos generalizing b with
  | nil => exact ⟨b, [], rfl, h, Grows.refl _, by simp, .nil⟩
  | cons info infos ih =>
    obtain ⟨hinfo, hrest⟩ := List.forall_mem_cons.mp hvalid
    obtain ⟨b₁, item, hstep, hwell, hgrows, hmeta, hdescribes⟩ := encodeSparseInfo_spec h hinfo
    obtain ⟨b', items, hrun, hwell', hgrows', hmeta', hitems⟩ := ih hwell hrest
    refine ⟨b', item :: items, ?_, hwell', hgrows.trans hgrows', ?_, ?_⟩
    · rw [List.foldlM_cons, hstep]
      exact hrun
    · rw [hmeta', hmeta, List.append_assoc]
      rfl
    · exact .cons (hdescribes.mono hgrows') hitems

theorem foldl_addGroup (h : WellBuilt b) (groups : List (ℕ × ℕ)) (values : List (Values α)) :
    ∃ b' more, values.foldl addGroup (b, groups) = (b', groups ++ more) ∧ WellBuilt b' ∧
      b'.metadata = b.metadata ∧ Grows b.finish b'.finish ∧
      List.Forall₂ (fun v place ↦ HoldsValues b'.finish place.1 place.2 (place.2 + v.data.length) v)
        values more := by
  induction values generalizing b groups with
  | nil => exact ⟨b, [], by simp, h, rfl, Grows.refl _, .nil⟩
  | cons v values ih =>
    have hspec := addValues_spec h v
    obtain ⟨⟨b₁, group, start, stop⟩, hadd⟩ : ∃ added, b.addValues v = added := ⟨_, rfl⟩
    rw [hadd] at hspec
    obtain ⟨hwell, hmeta, hgrows, hvalues⟩ := hspec
    obtain ⟨b', more, hrun, hwell', hmeta', hgrows', hplaces⟩ := ih hwell (groups ++ [(group, start)])
    refine ⟨b', (group, start) :: more, ?_, hwell', hmeta'.trans hmeta, hgrows.trans hgrows', ?_⟩
    · rw [List.foldl_cons, addGroup, hadd, hrun, List.append_assoc]
      rfl
    · refine .cons ?_ hplaces
      have hstop : stop = start + v.data.length := by
        obtain ⟨_, _, _, _, _, _, _, hstop⟩ := hvalues
        exact hstop
      rw [← hstop]
      exact hvalues.mono hgrows'

theorem remapItem_spec {p p' : TensorPayload α} {places : List (ℕ × ℕ)} {indexOffset : ℕ}
    (hplaces : List.Forall₂ (fun v place ↦
      HoldsValues p' place.1 place.2 (place.2 + v.data.length) v) p.values places)
    (hindices : Slice p'.indices indexOffset (indexOffset + p.indices.length) p.indices)
    {item : SparseItem} {info : SparseInfo α} (h : Describes p item info) :
    ∃ moved, remapItem places indexOffset item = some moved ∧ Describes p' moved info := by
  obtain ⟨whole, hget, hdtype, hslice⟩ := h.values
  obtain ⟨hlt, hwhole⟩ := List.getElem?_eq_some_iff.mp hget
  have hlt' : item.valueGroup < places.length := hplaces.length_eq ▸ hlt
  obtain ⟨⟨newGroup, start⟩, hplace⟩ : ∃ place, places[item.valueGroup] = place := ⟨_, rfl⟩
  have hholds := (List.forall₂_iff_get.mp hplaces).2 item.valueGroup hlt hlt'
  simp only [List.get_eq_getElem, hwhole, hplace] at hholds
  obtain ⟨target, htarget, htype, hpart⟩ := hholds
  have hlocated := h.located
  refine ⟨{ item with
      indexStart := item.indexStart + indexOffset
      indexEnd := item.indexEnd + indexOffset
      valueGroup := newGroup
      valueStart := item.valueStart + start
      valueEnd := item.valueEnd + start }, ?_, h.name, h.shape, h.dtype, h.operation,
    ⟨target, htarget, htype.trans hdtype, hpart.trans hslice⟩, ?_⟩
  · rw [remapItem, List.getElem?_eq_getElem hlt', hplace]
    rfl
  cases hencoding : item.encoding with
  | range first =>
    rw [hencoding] at hlocated
    simp only
    exact hlocated
  | deltas =>
    rw [hencoding] at hlocated
    simp only
    exact hindices.trans hlocated

theorem mapM_remapItem {p p' : TensorPayload α} {places : List (ℕ × ℕ)} {indexOffset : ℕ}
    (hplaces : List.Forall₂ (fun v place ↦
      HoldsValues p' place.1 place.2 (place.2 + v.data.length) v) p.values places)
    (hindices : Slice p'.indices indexOffset (indexOffset + p.indices.length) p.indices)
    {items : List SparseItem} {infos : List (SparseInfo α)}
    (h : List.Forall₂ (Describes p) items infos) :
    ∃ moved, items.mapM (remapItem places indexOffset) = some moved ∧
      List.Forall₂ (Describes p') moved infos := by
  induction h with
  | nil => exact ⟨[], rfl, .nil⟩
  | cons hitem _ ih =>
    obtain ⟨first, hfirst, hdescribes⟩ := remapItem_spec hplaces hindices hitem
    obtain ⟨rest, hrest, hall⟩ := ih
    exact ⟨first :: rest, by rw [List.mapM_cons, hfirst, hrest]; rfl, .cons hdescribes hall⟩

theorem mergePayload_spec (h : WellBuilt b) {p : TensorPayload α} {infos : List (SparseInfo α)}
    (hp : List.Forall₂ (Describes p) p.metadata infos) :
    ∃ b' items, mergePayload b p = some b' ∧ WellBuilt b' ∧ Grows b.finish b'.finish ∧
      b'.metadata = b.metadata ++ items ∧ List.Forall₂ (Describes b'.finish) items infos := by
  obtain ⟨b₁, places, hgroups, hwell, hmeta, hgrows, hplaces⟩ := foldl_addGroup h [] p.values
  have hspec := addLocations_spec hwell p.indices
  obtain ⟨⟨b₂, indexOffset, stop⟩, hadd⟩ : ∃ added, b₁.addLocations p.indices = added := ⟨_, rfl⟩
  rw [hadd] at hspec
  obtain ⟨hwell', hmeta', hgrows', hindices⟩ := hspec
  have hstop : stop = indexOffset + p.indices.length := by
    obtain ⟨_, _, _, _, hstop⟩ := hindices
    exact hstop
  simp only [hstop] at hindices
  have hplaces' := hplaces.imp fun v place hv ↦ hv.mono hgrows'
  obtain ⟨items, hmap, hdescribes⟩ := mapM_remapItem hplaces' hindices hp
  refine ⟨{ b₂ with metadata := b₂.metadata ++ items }, items, ?_, hwell'.withMetadata _,
    hgrows.trans hgrows', ?_, hdescribes.imp fun _ _ hd ↦ hd.mono (Grows.refl b₂.finish)⟩
  · rw [mergePayload, hgroups]
    simp only [List.nil_append, hadd, hmap]
    rfl
  · rw [← hmeta, ← hmeta']

theorem foldlM_merge (h : WellBuilt b) {parts : List (List (SparseInfo α) × TensorPayload α)}
    (hparts : ∀ part ∈ parts, List.Forall₂ (Describes part.2) part.2.metadata part.1) :
    ∃ b' items, (parts.map Prod.snd).foldlM mergePayload b = some b' ∧ WellBuilt b' ∧
      Grows b.finish b'.finish ∧ b'.metadata = b.metadata ++ items ∧
      List.Forall₂ (Describes b'.finish) items (parts.flatMap Prod.fst) := by
  induction parts generalizing b with
  | nil => exact ⟨b, [], rfl, h, Grows.refl _, by simp, .nil⟩
  | cons part parts ih =>
    obtain ⟨hpart, hrest⟩ := List.forall_mem_cons.mp hparts
    obtain ⟨b₁, items, hstep, hwell, hgrows, hmeta, hitems⟩ := mergePayload_spec h hpart
    obtain ⟨b', items', hrun, hwell', hgrows', hmeta', hitems'⟩ := ih hwell hrest
    refine ⟨b', items ++ items', ?_, hwell', hgrows.trans hgrows', ?_, ?_⟩
    · rw [List.map_cons, List.foldlM_cons, hstep]
      exact hrun
    · rw [hmeta', hmeta, List.append_assoc]
    · rw [List.flatMap_cons]
      exact List.rel_append (hitems.imp fun _ _ hd ↦ hd.mono hgrows') hitems'

end Building

/-- The payloads made of a list of infos: encoded at once, or merged of payloads
made of consecutive parts of it. -/
inductive Merging : List (SparseInfo α) → Option (TensorPayload α) → Prop
  | encode (infos : List (SparseInfo α)) : Merging infos (encodeSparseInfos infos)
  | merge (parts : List (List (SparseInfo α) × TensorPayload α))
      (h : ∀ part ∈ parts, Merging part.1 (some part.2)) :
      Merging (parts.flatMap Prod.fst) (mergeSparsePayloads (parts.map Prod.snd))

theorem Merging.describes {infos : List (SparseInfo α)} {result : Option (TensorPayload α)}
    (h : Merging infos result) (hvalid : ∀ info ∈ infos, info.Valid) :
    ∃ p, result = some p ∧ List.Forall₂ (Describes p) p.metadata infos := by
  induction h with
  | encode infos =>
    obtain ⟨b, items, hrun, _, _, hmeta, hitems⟩ := foldlM_encode wellBuilt_empty hvalid
    refine ⟨b.finish, by rw [encodeSparseInfos, hrun]; rfl, ?_⟩
    have hmetadata : b.finish.metadata = items := hmeta
    rw [hmetadata]
    exact hitems
  | merge parts h ih =>
    have hparts : ∀ part ∈ parts, List.Forall₂ (Describes part.2) part.2.metadata part.1 := by
      intro part hpart
      obtain ⟨p, hp, hdescribes⟩ := ih part hpart fun info hinfo ↦
        hvalid info (List.mem_flatMap.mpr ⟨part, hpart, hinfo⟩)
      rwa [Option.some.inj hp]
    obtain ⟨b, items, hrun, _, _, hmeta, hitems⟩ := foldlM_merge wellBuilt_empty hparts
    refine ⟨b.finish, by rw [mergeSparsePayloads, hrun]; rfl, ?_⟩
    have hmetadata : b.finish.metadata = items := hmeta
    rw [hmetadata]
    exact hitems

section Decoding

variable {p : TensorPayload α} {item : SparseItem} {info : SparseInfo α}

theorem valueSlice_of_describes (h : Describes p item info) :
    valueSlice p.values item = some info.values ∧
      item.valueEnd - item.valueStart = info.values.data.length := by
  obtain ⟨whole, hget, hdtype, hslice⟩ := h.values
  have hstop : item.valueEnd = item.valueStart + info.values.data.length := by
    obtain ⟨_, _, _, _, hstop⟩ := hslice
    exact hstop
  refine ⟨?_, by omega⟩
  rw [valueSlice, hget, Option.map_some, hslice.extract, hdtype]

theorem storedGaps_of_describes (h : Describes p item info) (hvalid : info.Valid)
    (hencoding : item.encoding = .deltas) :
    storedGaps p.indices item = some (gapsFrom 0 info.locations) := by
  obtain ⟨hne, hsorted, hbound, hnumel, hcount⟩ := hvalid
  have hhigh : ∀ l ∈ info.locations, l + 1 < 2 ^ 63 := by
    intro l hl
    have := hbound l hl
    omega
  obtain ⟨width, hwidth, hbytes, hfit⟩ := encodeExplicitLocations_eq hsorted hhigh
  have hlocated := h.located
  rw [hencoding, hbytes] at hlocated
  have hpos : 0 < info.locations.length := List.length_pos_iff.mpr hne
  have hvalues : item.valueEnd - item.valueStart = info.locations.length := by
    rw [(valueSlice_of_describes h).2, hcount]
  have hwidth₀ : 0 < width := by omega
  have hlength : ((gapsFrom 0 info.locations).flatMap (split width)).length =
      info.locations.length * width := by
    rw [length_flatMap_split, length_gapsFrom]
  have hraw : (p.indices.take item.indexEnd).drop item.indexStart =
      (gapsFrom 0 info.locations).flatMap (split width) := hlocated.extract
  simp only [storedGaps, hraw, hvalues, hlength, if_neg hpos.ne',
    Nat.mul_div_cancel_left width hpos, if_pos hwidth, Nat.mul_mod_left, if_true,
    Nat.mul_div_cancel info.locations.length hwidth₀]
  have hwords := words_flatMap_split hfit
  rw [length_gapsFrom] at hwords
  rw [hwords]

theorem lt_pow_of_numel {dt : LocationDtype} (hvalid : info.Valid)
    (hnumel : info.shape.prod ≤ dt.max) : ∀ l ∈ info.locations, l + 1 < 2 ^ (dt.bits - 1) := by
  intro l hl
  have hlt := hvalid.2.2.1 l hl
  have hpow : 0 < 2 ^ (dt.bits - 1) := by positivity
  unfold LocationDtype.max at hnumel
  omega

theorem sparseLocations_of_describes (h : Describes p item info) (hvalid : info.Valid)
    {dt : LocationDtype} (hnumel : info.shape.prod ≤ dt.max) :
    sparseLocationsForItem dt p.indices item = some (info.locations.map fun l : ℕ ↦ (l : ℤ)) := by
  have hhigh := lt_pow_of_numel hvalid hnumel
  have hbits : 0 < dt.bits := by cases dt <;> decide
  have hwrap : ∀ x, Fits dt.bits x → wrap dt.bits x = x := fun x hx ↦ wrap_of_fits hbits hx
  cases hencoding : item.encoding with
  | range start =>
    have hlocated := h.located
    rw [hencoding] at hlocated
    have hcount : item.valueEnd - item.valueStart = info.locations.length := by
      rw [(valueSlice_of_describes h).2, hvalid.2.2.2.2]
    simp only [sparseLocationsForItem, hencoding, hcount, Option.some.injEq]
    conv_rhs => rw [hlocated, List.range'_eq_map_range, List.map_map]
    refine List.map_congr_left fun i hi ↦ ?_
    have hmem : start + i ∈ info.locations := by
      rw [hlocated, List.mem_range'_1]
      have := List.mem_range.mp hi
      omega
    have hfits : Fits dt.bits ((start + i : ℕ) : ℤ) := by
      have hlt := hhigh _ hmem
      have hpos : (0 : ℤ) ≤ 2 ^ (dt.bits - 1) := by positivity
      refine ⟨by omega, ?_⟩
      exact_mod_cast (by omega : start + i < 2 ^ (dt.bits - 1))
    exact hwrap _ hfits
  | deltas =>
    simp only [sparseLocationsForItem, hencoding, storedGaps_of_describes h hvalid hencoding,
      Option.map_some, decodeSteps_gapsFrom hwrap hvalid.2.1 hhigh]

/-- The gaps an item stores are the encoder's differences, and no arithmetic on
either side is inexact. -/
theorem gaps_of_describes (h : Describes p item info) (hvalid : info.Valid)
    (hencoding : item.encoding = .deltas) :
    ∃ gaps, storedGaps p.indices item = some gaps ∧
      gaps.map (fun gap : ℕ ↦ (gap : ℤ)) = locationDeltas (wrap 64) (-1) info.locations ∧
      locationDeltas (wrap 64) (-1) info.locations = locationDeltas id (-1) info.locations ∧
      ∀ dt : LocationDtype, info.shape.prod ≤ dt.max →
        decodeSteps (wrap dt.bits) gaps = decodeSteps id gaps := by
  have hhigh : ∀ l ∈ info.locations, l + 1 < 2 ^ 63 := by
    intro l hl
    have hlt := hvalid.2.2.1 l hl
    have hnumel := hvalid.2.2.2.1
    omega
  have hdeltas : ∀ f : ℤ → ℤ, (∀ x, Fits 64 x → f x = x) →
      locationDeltas f (-1) info.locations =
        (gapsFrom 0 info.locations).map fun gap : ℕ ↦ (gap : ℤ) := by
    intro f hf
    have hzero := locationDeltas_eq hf hvalid.2.1 (fun l _ ↦ Nat.zero_le l) hhigh
    simpa using hzero
  have hwrapped := hdeltas (wrap 64) fun x hx ↦ wrap_of_fits (by omega) hx
  refine ⟨_, storedGaps_of_describes h hvalid hencoding, hwrapped.symm,
    hwrapped.trans (hdeltas id fun _ _ ↦ rfl).symm, fun dt hnumel ↦ ?_⟩
  have hbits : 0 < dt.bits := by cases dt <;> decide
  have hnarrow := lt_pow_of_numel hvalid hnumel
  have hexact := decodeSteps_gapsFrom (f := id) (fun _ _ ↦ rfl) hvalid.2.1 hnarrow
  have hmachine := decodeSteps_gapsFrom (fun x hx ↦ wrap_of_fits hbits hx) hvalid.2.1 hnarrow
  exact hmachine.trans hexact.symm

theorem locationDtype_fits (hvalid : info.Valid) :
    info.shape.prod ≤ (locationDtype info.shape).max := by
  have hnumel := hvalid.2.2.2.1
  unfold locationDtype
  split_ifs with h
  · exact h
  · simp only [LocationDtype.max, LocationDtype.bits]
    omega

theorem iterSparsePayload_of_describes {items : List SparseItem} {infos : List (SparseInfo α)}
    (h : List.Forall₂ (Describes p) items infos) (hvalid : ∀ info ∈ infos, info.Valid) :
    iterSparsePayload [] { p with metadata := items } = some (items.zip (infos.map fun info ↦
      (info.locations.map (fun l : ℕ ↦ (l : ℤ)), info.values))) := by
  have hall : ∀ items : List SparseItem, items.filter (fun item ↦ item.name ∉ ([] : List String)) =
      items := fun items ↦ List.filter_eq_self.mpr (by simp)
  simp only [iterSparsePayload, hall]
  induction h with
  | nil => rfl
  | @cons item info items infos hitem _ ih =>
    obtain ⟨hinfo, hrest⟩ := List.forall_mem_cons.mp hvalid
    rw [List.mapM_cons, ih hrest, hitem.shape,
      sparseLocations_of_describes hitem hinfo (locationDtype_fits hinfo),
      (valueSlice_of_describes hitem).1]
    rfl

end Decoding

/-- However a list of infos is cut into payloads and these are merged, every item
decodes to its info, and no integer of the way leaves its type. -/
theorem merging_round_trip (infos : List (SparseInfo α)) (result : Option (TensorPayload α))
    (h : Merging infos result) (hvalid : ∀ info ∈ infos, info.Valid) :
    ∃ p, result = some p ∧
      List.Forall₂ (fun item info ↦
        item.name = info.name ∧ item.shape = info.shape ∧
        dtypeFromName item.dtype = some info.dtype ∧ item.operation = info.operation ∧
        valueSlice p.values item = some info.values ∧
        (∀ dt : LocationDtype, info.shape.prod ≤ dt.max →
          sparseLocationsForItem dt p.indices item =
            some (info.locations.map fun l : ℕ ↦ (l : ℤ))) ∧
        (item.encoding = .deltas → ∃ gaps, storedGaps p.indices item = some gaps ∧
          gaps.map (fun gap : ℕ ↦ (gap : ℤ)) = locationDeltas (wrap 64) (-1) info.locations ∧
          locationDeltas (wrap 64) (-1) info.locations = locationDeltas id (-1) info.locations ∧
          ∀ dt : LocationDtype, info.shape.prod ≤ dt.max →
            decodeSteps (wrap dt.bits) gaps = decodeSteps id gaps)) p.metadata infos ∧
      iterSparsePayload [] p = some (p.metadata.zip (infos.map fun info ↦
        (info.locations.map (fun l : ℕ ↦ (l : ℤ)), info.values))) := by
  obtain ⟨p, hp, hdescribes⟩ := h.describes hvalid
  refine ⟨p, hp, ?_, iterSparsePayload_of_describes hdescribes hvalid⟩
  have hboth := (List.forall₂_and_left _ _).mpr ⟨hvalid, hdescribes.flip⟩
  refine (hboth.imp fun info item h ↦ ?_).flip
  obtain ⟨hinfo, hitem⟩ := h
  refine ⟨hitem.name, hitem.shape, ?_, hitem.operation, (valueSlice_of_describes hitem).1,
    fun dt hnumel ↦ sparseLocations_of_describes hitem hinfo hnumel,
    fun hencoding ↦ gaps_of_describes hitem hinfo hencoding⟩
  rw [hitem.dtype]
  exact dtypeFromName_name info.dtype

def matrixInfo : SparseInfo ℕ := ⟨"w", [4, 3], .bfloat16, [0, 7], ⟨.int16, [5, 6]⟩, .xor⟩

def vectorInfo : SparseInfo ℕ := ⟨"b", [3], .float32, [1, 2], ⟨.int32, [8, 9]⟩, .overwrite⟩

theorem merging_round_trip_pair : ∃ a b p, encodeSparseInfos [matrixInfo] = some a ∧
    encodeSparseInfos [vectorInfo] = some b ∧ mergeSparsePayloads [a, b] = some p ∧
    iterSparsePayload [] p =
      some (p.metadata.zip [([0, 7], ⟨.int16, [5, 6]⟩), ([1, 2], ⟨.int32, [8, 9]⟩)]) := by
  obtain ⟨a, ha⟩ : ∃ a, encodeSparseInfos [matrixInfo] = some a := ⟨_, rfl⟩
  obtain ⟨b, hb⟩ : ∃ b, encodeSparseInfos [vectorInfo] = some b := ⟨_, rfl⟩
  have hmerging : Merging [matrixInfo, vectorInfo] (mergeSparsePayloads [a, b]) := by
    refine Merging.merge [([matrixInfo], a), ([vectorInfo], b)] ?_
    simp only [List.forall_mem_cons, List.not_mem_nil, false_imp_iff, implies_true, and_true]
    exact ⟨ha ▸ Merging.encode [matrixInfo], hb ▸ Merging.encode [vectorInfo]⟩
  have hvalid : ∀ info ∈ [matrixInfo, vectorInfo], info.Valid := by
    simp only [List.forall_mem_cons, List.not_mem_nil, false_imp_iff, implies_true, and_true]
    constructor
    · exact ⟨by decide, by decide, by decide, by decide, rfl⟩
    · exact ⟨by decide, by decide, by decide, by decide, rfl⟩
  obtain ⟨p, hp, _, hiter⟩ := merging_round_trip [matrixInfo, vectorInfo] _ hmerging hvalid
  exact ⟨a, b, p, ha, hb, hp, hiter⟩

end NemoRL.Utils.SparseCodec
