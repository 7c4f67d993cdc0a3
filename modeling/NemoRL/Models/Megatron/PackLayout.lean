import Mathlib
import NemoRL.Models.Megatron.PackedLogprobs

namespace NemoRL.Models.Megatron

open Foundations.Blocks Foundations.Ragged Distributed.ContextParallel

variable {α β : Type} {padFactor padPackedSeqToMultipleOf : ℕ} {padPackedSeqTo : Option ℕ}
  {pad : α} {cpRank cpSize : ℕ}

/-- Parameters that packing divides by nothing of zero with. -/
structure Divides (padFactor padPackedSeqToMultipleOf : ℕ) (padPackedSeqTo : Option ℕ) : Prop where
  factor : needsPadding padFactor padPackedSeqToMultipleOf padPackedSeqTo = true → 0 < padFactor
  multiple : padPackedSeqTo.isSome → 0 < padPackedSeqToMultipleOf

section Naturality

def PackedSequences.map (f : α → β) (packed : PackedSequences α) : PackedSequences β :=
  ⟨packed.allInputIds.map f, packed.packedInputIds.map f, packed.maxSeqlen, packed.cuSeqlens,
    packed.cuSeqlensPadded⟩

def mapSamples (f : α → β) (samples : List (List α × ℕ)) : List (List β × ℕ) :=
  samples.map fun x ↦ (x.1.map f, x.2)

theorem map_snd_mapSamples (f : α → β) (samples : List (List α × ℕ)) :
    (mapSamples f samples).map Prod.snd = samples.map Prod.snd := by
  rw [mapSamples, List.map_map]
  rfl

theorem padSequences_map (f : α → β) (runningSeqLen : ℕ) (samples : List (List α × ℕ)) :
    padSequences padFactor padPackedSeqToMultipleOf padPackedSeqTo (f pad) runningSeqLen
        (mapSamples f samples) =
      (padSequences padFactor padPackedSeqToMultipleOf padPackedSeqTo pad runningSeqLen samples).map
        (List.map f) := by
  induction samples generalizing runningSeqLen with
  | nil => rfl
  | cons x samples ih =>
    have hempty : (mapSamples f samples).isEmpty = samples.isEmpty := by
      rw [mapSamples, List.isEmpty_map]
    have hcons : mapSamples f (x :: samples) = (x.1.map f, x.2) :: mapSamples f samples := rfl
    rw [hcons, padSequences, padSequences]
    simp only [hempty, ih, List.map_cons, List.map_append, List.map_take, List.map_replicate]

theorem packSequencesForMegatron_map (f : α → β) (samples : List (List α × ℕ)) :
    packSequencesForMegatron padFactor padPackedSeqToMultipleOf padPackedSeqTo (f pad)
        (mapSamples f samples) cpRank cpSize =
      (packSequencesForMegatron padFactor padPackedSeqToMultipleOf padPackedSeqTo pad samples cpRank
        cpSize).map (PackedSequences.map f) := by
  have hnil : mapSamples f samples = [] ↔ samples = [] := by rw [mapSamples, List.map_eq_nil_iff]
  rw [packSequencesForMegatron, packSequencesForMegatron, map_snd_mapSamples]
  cases padPackedSeqTo.filter (· % padPackedSeqToMultipleOf ≠ 0) with
  | some length => rfl
  | none =>
    by_cases hsamples : samples = []
    · simp only [if_pos (hnil.mpr hsamples), if_pos hsamples]
      rfl
    simp only [if_neg (hnil.not.mpr hsamples), if_neg hsamples]
    by_cases hfactor : padFactor > 1
    · have hrank : ∀ parts : List (List α),
          ((parts.map (List.map f)).flatMap fun seqTokens ↦
              if cpSize > 1 then getTokensOnThisCpRank cpRank cpSize seqTokens else seqTokens) =
            (parts.flatMap fun seqTokens ↦
              if cpSize > 1 then getTokensOnThisCpRank cpRank cpSize seqTokens
              else seqTokens).map f := fun parts ↦ by
        rw [List.flatMap_map, List.map_flatMap]
        congr 1
        funext part
        split_ifs
        · exact (map_getTokensOnThisCpRank f part).symm
        · rfl
      simp only [if_pos hfactor, padSequences_map, hrank, ← List.map_flatten]
      rfl
    · have hvalid : ((mapSamples f samples).flatMap fun x ↦ x.1.take x.2) =
          (samples.flatMap fun x ↦ x.1.take x.2).map f := by
        rw [mapSamples, List.flatMap_map, List.map_flatMap]
        simp only [List.map_take]
      simp only [if_neg hfactor, hvalid, List.length_map]
      rw [← List.map_replicate, ← List.map_append]
      rfl

end Naturality

section Parts

variable {samples : List (List α × ℕ)} {x : List α × ℕ}

/-- The lengths of the parts of a pack; the last one is padded as far as there is room. -/
theorem map_length_packParts (hpf : 0 < padFactor)
    (hlens : ∀ y ∈ samples ++ [x], y.2 ≤ y.1.length) :
    (packParts padFactor padPackedSeqToMultipleOf padPackedSeqTo pad (samples ++ [x])).map
      List.length = paddedLens padFactor samples ++
        [x.2 + (packedLength padPackedSeqToMultipleOf padPackedSeqTo
          (paddedLens padFactor (samples ++ [x])).sum - (paddedLens padFactor samples).sum - x.2)] := by
  rw [packParts, padSequences_append, List.map_append, List.map_map, List.map_singleton,
    Nat.zero_add, paddedLens_append, List.sum_append, List.sum_singleton]
  congr 1
  · rw [paddedLens, List.map_map]
    refine List.map_congr_left fun y hy ↦ ?_
    have hy' := hlens y (List.mem_append_left _ hy)
    have hround := le_roundUpToMultiple (n := y.2) hpf
    simp only [Function.comp_apply, List.length_append, List.length_take, List.length_replicate]
    omega
  · have hx := hlens x (List.mem_append_right _ (List.mem_singleton_self x))
    rw [List.length_append, List.length_take, List.length_replicate, Nat.min_eq_left hx]

theorem boundaries_eq (hpf : 0 < padFactor) :
    (if needsPadding padFactor padPackedSeqToMultipleOf padPackedSeqTo = true then
      paddedBoundaries padFactor padPackedSeqToMultipleOf padPackedSeqTo
        ((samples ++ [x]).map Prod.snd)
      else cumulative ((samples ++ [x]).map Prod.snd)) =
      offsets (paddedLens padFactor samples) ++
        [packedLength padPackedSeqToMultipleOf padPackedSeqTo
          (paddedLens padFactor (samples ++ [x])).sum] := by
  have hpadded : paddedBoundaries padFactor padPackedSeqToMultipleOf padPackedSeqTo
      ((samples ++ [x]).map Prod.snd) = offsets (paddedLens padFactor samples) ++
        [packedLength padPackedSeqToMultipleOf padPackedSeqTo
          (paddedLens padFactor (samples ++ [x])).sum] := by
    rw [paddedBoundaries, cumulative_eq, ← paddedLens, getLastD_offsets]
    rw [paddedLens_append, offsets_append, List.length_append, List.length_singleton,
      Nat.add_sub_cancel, List.set_append_right _ _ le_rfl, Nat.sub_self]
    rfl
  split
  · exact hpadded
  · rename_i hnone
    rw [← paddedBoundaries_of_not_needsPadding hpf _ (Bool.eq_false_iff.mpr hnone)]
    exact hpadded

/-- What packing returns, in terms of its parts. -/
structure Packs (padFactor padPackedSeqToMultipleOf : ℕ) (padPackedSeqTo : Option ℕ) (pad : α)
    (samples : List (List α × ℕ)) (x : List α × ℕ) (packed : PackedSequences α) : Prop where
  allInputIds : packed.allInputIds =
    (packParts padFactor padPackedSeqToMultipleOf padPackedSeqTo pad (samples ++ [x])).flatten
  cuSeqlens : packed.cuSeqlens = offsets ((samples ++ [x]).map Prod.snd)
  cuSeqlensPadded : packed.cuSeqlensPadded = offsets (paddedLens padFactor samples) ++
    [packedLength padPackedSeqToMultipleOf padPackedSeqTo (paddedLens padFactor (samples ++ [x])).sum]

theorem packs_of_ok (hpf : 0 < padFactor) (hlens : ∀ y ∈ samples ++ [x], y.2 ≤ y.1.length)
    {packed : PackedSequences α}
    (h : packSequencesForMegatron padFactor padPackedSeqToMultipleOf padPackedSeqTo pad
      (samples ++ [x]) cpRank cpSize = .ok packed) :
    Packs padFactor padPackedSeqToMultipleOf padPackedSeqTo pad samples x packed ∧
      (1 < padFactor ∨ cpSize ≤ 1 → packed.packedInputIds =
        ((packParts padFactor padPackedSeqToMultipleOf padPackedSeqTo pad (samples ++ [x])).map
          fun part ↦ if cpSize > 1 then getTokensOnThisCpRank cpRank cpSize part
            else part).flatten) := by
  have hcu := @boundaries_eq _ _ padPackedSeqToMultipleOf padPackedSeqTo samples x hpf
  rw [packSequencesForMegatron] at h
  cases hmod : padPackedSeqTo.filter (· % padPackedSeqToMultipleOf ≠ 0) with
  | some length =>
    rw [hmod] at h
    cases h
  | none =>
    have hne : samples ++ [x] ≠ [] := by simp
    rw [hmod, hcu] at h
    dsimp only at h
    rw [if_neg hne] at h
    by_cases hfactor : padFactor > 1
    · rw [if_pos hfactor] at h
      cases h
      exact ⟨⟨rfl, cumulative_eq _, rfl⟩, fun _ ↦ by rw [packParts, List.flatMap_def]⟩
    · obtain rfl : padFactor = 1 := by omega
      rw [if_neg hfactor] at h
      cases h
      have hflat := @flatten_padSequences_one _ padPackedSeqToMultipleOf padPackedSeqTo pad _ _
        hlens
      refine ⟨⟨by rw [packParts, hflat], cumulative_eq _, rfl⟩, fun hcp ↦ ?_⟩
      have hone : ¬ cpSize > 1 := by omega
      simp only [if_neg hone, List.map_id']
      rw [packParts, hflat]

end Parts

section Layout

def taggedSamples (width : ℕ) (seqLengths : List ℕ) : List (List (Option (ℕ × ℕ)) × ℕ) :=
  seqLengths.mapIdx fun b seqLen ↦ ((List.range width).map fun t ↦ some (b, t), seqLen)

def lookup (pad : β) (rows : List (List β)) : Option (ℕ × ℕ) → Option β
  | none => some pad
  | some (b, t) => (rows[b]?).bind fun row ↦ row[t]?

/-- A packed tensor has at each position what its rows have for the token there, and the
padding where there is none. -/
def Rides (layout : List (Option (ℕ × ℕ))) (pad : β) (rows : List (List β)) (packed : List β) :
    Prop := packed.map some = layout.map (lookup pad rows)

theorem Rides.length_eq {layout : List (Option (ℕ × ℕ))} {pad : β} {rows : List (List β)}
    {packed : List β} (h : Rides layout pad rows packed) : packed.length = layout.length := by
  have hlen := congrArg List.length h
  rwa [List.length_map, List.length_map] at hlen

theorem mapSamples_lookup {width : ℕ} {seqLengths : List ℕ} {rows : List (List β)} (pad : β)
    (hrows : rows.length = seqLengths.length) (hwidth : ∀ row ∈ rows, row.length = width) :
    mapSamples (lookup pad rows) (taggedSamples width seqLengths) =
      mapSamples some (rows.zip seqLengths) := by
  refine List.ext_getElem (by simp [mapSamples, taggedSamples, hrows]) fun b hb hb' ↦ ?_
  have hrow : b < rows.length := by
    rw [mapSamples, List.length_map, List.length_zip] at hb'
    omega
  simp only [mapSamples, taggedSamples, List.getElem_map, List.getElem_mapIdx, List.getElem_zip,
    List.map_map, Prod.mk.injEq, and_true]
  have hw := hwidth rows[b] (List.getElem_mem hrow)
  refine List.ext_getElem (by simp [hw]) fun t ht ht' ↦ ?_
  have htw : t < rows[b].length := by rwa [List.length_map] at ht'
  simp only [List.getElem_map, List.getElem_range, Function.comp_apply, lookup,
    List.getElem?_eq_getElem hrow, Option.bind_some, List.getElem?_eq_getElem htw]

variable {width : ℕ} {pad : β} {rows : List (List β)} {seqLengths : List ℕ}

theorem pack_lookup (hrows : rows.length = seqLengths.length)
    (hwidth : ∀ row ∈ rows, row.length = width) :
    (packSequencesForMegatron padFactor padPackedSeqToMultipleOf padPackedSeqTo pad
        (rows.zip seqLengths) cpRank cpSize).map (PackedSequences.map some) =
      (packSequencesForMegatron padFactor padPackedSeqToMultipleOf padPackedSeqTo none
        (taggedSamples width seqLengths) cpRank cpSize).map
          (PackedSequences.map (lookup pad rows)) := by
  rw [← packSequencesForMegatron_map, ← packSequencesForMegatron_map,
    mapSamples_lookup pad hrows hwidth]
  rfl

theorem exists_layout (hrows : rows.length = seqLengths.length)
    (hwidth : ∀ row ∈ rows, row.length = width) {packed : PackedSequences β}
    (h : packSequencesForMegatron padFactor padPackedSeqToMultipleOf padPackedSeqTo pad
      (rows.zip seqLengths) cpRank cpSize = .ok packed) :
    ∃ layout, packSequencesForMegatron padFactor padPackedSeqToMultipleOf padPackedSeqTo none
      (taggedSamples width seqLengths) cpRank cpSize = .ok layout := by
  have hlookup := @pack_lookup _ padFactor padPackedSeqToMultipleOf padPackedSeqTo cpRank cpSize _
    pad _ _ hrows hwidth
  rw [h] at hlookup
  cases htags : packSequencesForMegatron padFactor padPackedSeqToMultipleOf padPackedSeqTo none
      (taggedSamples width seqLengths) cpRank cpSize with
  | ok layout => exact ⟨layout, rfl⟩
  | error e =>
    rw [htags] at hlookup
    cases hlookup

theorem pack_of_layout (hrows : rows.length = seqLengths.length)
    (hwidth : ∀ row ∈ rows, row.length = width) {layout : PackedSequences (Option (ℕ × ℕ))}
    (h : packSequencesForMegatron padFactor padPackedSeqToMultipleOf padPackedSeqTo none
      (taggedSamples width seqLengths) cpRank cpSize = .ok layout) :
    ∃ packed, packSequencesForMegatron padFactor padPackedSeqToMultipleOf padPackedSeqTo pad
        (rows.zip seqLengths) cpRank cpSize = .ok packed ∧
      Rides layout.allInputIds pad rows packed.allInputIds ∧
      Rides layout.packedInputIds pad rows packed.packedInputIds ∧
      packed.cuSeqlens = layout.cuSeqlens ∧ packed.cuSeqlensPadded = layout.cuSeqlensPadded := by
  have hlookup := @pack_lookup _ padFactor padPackedSeqToMultipleOf padPackedSeqTo cpRank cpSize _
    pad _ _ hrows hwidth
  rw [h] at hlookup
  cases hpack : packSequencesForMegatron padFactor padPackedSeqToMultipleOf padPackedSeqTo pad
      (rows.zip seqLengths) cpRank cpSize with
  | error e =>
    rw [hpack] at hlookup
    cases hlookup
  | ok packed =>
    rw [hpack] at hlookup
    have heq := Except.ok.inj hlookup
    exact ⟨packed, rfl, congrArg PackedSequences.allInputIds heq,
      congrArg PackedSequences.packedInputIds heq, congrArg PackedSequences.cuSeqlens heq,
      congrArg PackedSequences.cuSeqlensPadded heq⟩

end Layout

end NemoRL.Models.Megatron
