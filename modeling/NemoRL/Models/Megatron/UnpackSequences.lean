import Mathlib
import NemoRL.Foundations.Positions
import NemoRL.Models.Megatron.PackLayout

namespace NemoRL.Models.Megatron

open Foundations.Blocks Foundations.Ragged Foundations.Positions Distributed.ContextParallel

variable {α β : Type}

section Unpack

variable (zero : β) (outputTensor : List β) (seqLengths cuSeqlens : List ℕ)
  (cuSeqlensPadded : Option (List ℕ)) (originalSeqLength cpSize : ℕ)

def unpackStart (b : ℕ) : ℕ :=
  match cuSeqlensPadded with
  | some padded => if cpSize > 1 then padded.getD b 0 else cuSeqlens.getD b 0
  | none => cuSeqlens.getD b 0

def unpackStop (b : ℕ) : ℕ :=
  match cuSeqlensPadded with
  | some padded =>
    if cpSize > 1 then padded.getD b 0 + seqLengths.getD b 0 else cuSeqlens.getD (b + 1) 0
  | none => cuSeqlens.getD (b + 1) 0

def unpackSequencesFromMegatron (originalBatchSize : ℕ) : Option (List (List β)) :=
  (List.range originalBatchSize).mapM fun b ↦
    assignSlice (List.replicate originalSeqLength zero) 0 (seqLengths.getD b 0)
      (slice outputTensor (unpackStart cuSeqlens cuSeqlensPadded cpSize b)
        (unpackStop seqLengths cuSeqlens cuSeqlensPadded cpSize b))

end Unpack

/-- What unpacking is for: each sample's row has at its tokens what the output has where
they were packed, and zeros behind them. -/
structure Unpacked (layout : List (Option (ℕ × ℕ))) (zero : β) (width : ℕ) (seqLengths : List ℕ)
    (output : List β) (rows : List (List β)) : Prop where
  length : rows.length = seqLengths.length ∧ ∀ row ∈ rows, row.length = width
  tokens : ∀ (b seqLen t : ℕ), seqLengths[b]? = some seqLen → t < seqLen →
    ∃ p : ℕ, layout[p]? = some (some (b, t)) ∧
      (rows[b]?).bind (fun row : List β ↦ row[t]?) = output[p]?
  zeros : ∀ (b seqLen t : ℕ), seqLengths[b]? = some seqLen → seqLen ≤ t → t < width →
    (rows[b]?).bind (fun row : List β ↦ row[t]?) = some zero

section Layout

variable {padFactor padPackedSeqToMultipleOf width : ℕ} {padPackedSeqTo : Option ℕ}
  {seqLengths : List ℕ}

def packedStart (padFactor : ℕ) (seqLengths : List ℕ) (b : ℕ) : ℕ :=
  offset (seqLengths.map (roundUpToMultiple · padFactor)) b

theorem map_snd_taggedSamples : (taggedSamples width seqLengths).map Prod.snd = seqLengths := by
  rw [taggedSamples]
  refine List.ext_getElem (by simp) fun b hb hb' ↦ ?_
  rw [List.getElem_map, List.getElem_mapIdx]

theorem getElem?_taggedSamples {b seqLen : ℕ} (h : seqLengths[b]? = some seqLen) :
    (taggedSamples width seqLengths)[b]? =
      some ((List.range width).map (fun t ↦ some (b, t)), seqLen) := by
  rw [taggedSamples, List.getElem?_mapIdx, h]
  rfl

theorem taggedSamples_fits (hlens : ∀ seqLen ∈ seqLengths, seqLen ≤ width) :
    ∀ y ∈ taggedSamples width seqLengths, y.2 ≤ y.1.length := by
  intro y hy
  obtain ⟨b, hb⟩ := List.mem_iff_getElem?.mp hy
  have hlen : seqLengths[b]? = some y.2 := by
    rw [← @map_snd_taggedSamples width seqLengths, List.getElem?_map, hb,
      Option.map_some]
  rw [getElem?_taggedSamples hlen, Option.some.injEq] at hb
  rw [← hb, List.length_map, List.length_range]
  exact hlens y.2 (List.mem_of_getElem? hlen)

/-- The parts of a tagged pack: a sample's tags and its padding. -/
structure TaggedParts (padFactor : ℕ) (seqLengths : List ℕ) (parts : List (List (Option (ℕ × ℕ)))) :
    Prop where
  length : parts.length = seqLengths.length
  part : ∀ (b seqLen : ℕ), seqLengths[b]? = some seqLen → ∃ k : ℕ, parts[b]? =
    some ((List.range seqLen).map (fun t ↦ some (b, t)) ++ List.replicate k none)
  start : ∀ b < seqLengths.length, offset (parts.map List.length) b =
    packedStart padFactor seqLengths b

theorem taggedParts_packParts {samples : List (List (Option (ℕ × ℕ)) × ℕ)}
    {x : List (Option (ℕ × ℕ)) × ℕ} (hpf : 0 < padFactor)
    (htags : taggedSamples width seqLengths = samples ++ [x])
    (hlens : ∀ seqLen ∈ seqLengths, seqLen ≤ width) :
    TaggedParts padFactor seqLengths
      (packParts padFactor padPackedSeqToMultipleOf padPackedSeqTo none (samples ++ [x])) := by
  have hsnd : (samples ++ [x]).map Prod.snd = seqLengths := htags ▸ map_snd_taggedSamples
  have hcount : samples.length + 1 = seqLengths.length := by
    rw [← hsnd, List.length_map, List.length_append, List.length_singleton]
  have hfits : ∀ y ∈ samples ++ [x], y.2 ≤ y.1.length := htags ▸ taggedSamples_fits hlens
  refine ⟨?_, fun b seqLen hlen ↦ ?_, fun b hb ↦ ?_⟩
  · rw [packParts, padSequences_append, List.length_append, List.length_map, List.length_singleton,
      hcount]
  · have hb := @getElem?_taggedSamples width _ _ _ hlen
    have htake : ((List.range width).map fun t ↦ some (b, t)).take seqLen =
        (List.range seqLen).map fun t ↦ some (b, t) := by
      rw [← List.map_take, List.take_range, Nat.min_eq_left (hlens seqLen (List.mem_of_getElem? hlen))]
    rw [htags] at hb
    rw [packParts, padSequences_append]
    rcases Nat.lt_or_ge b samples.length with hlt | hge
    · rw [List.getElem?_append_left hlt] at hb
      rw [List.getElem?_append_left (by rwa [List.length_map]), List.getElem?_map, hb, Option.map_some,
        htake]
      exact ⟨_, rfl⟩
    · obtain rfl : b = samples.length := by
        have hlt := (List.getElem?_eq_some_iff.mp hlen).1
        omega
      rw [List.getElem?_concat_length, Option.some.injEq] at hb
      rw [List.getElem?_append_right (by rw [List.length_map]), List.length_map, Nat.sub_self, hb,
        htake]
      exact ⟨_, rfl⟩
  · have hlen : (paddedLens padFactor samples).length = samples.length := by simp [paddedLens]
    have hpadded : seqLengths.map (roundUpToMultiple · padFactor) =
        paddedLens padFactor samples ++ [roundUpToMultiple x.2 padFactor] := by
      rw [← hsnd, ← paddedLens, paddedLens_append]
    rw [map_length_packParts hpf hfits, packedStart, hpadded, offset_append (by omega),
      offset_append (by omega)]

variable {parts : List (List (Option (ℕ × ℕ)))}

theorem TaggedParts.getElem? (h : TaggedParts padFactor seqLengths parts) {b seqLen t : ℕ}
    (hlen : seqLengths[b]? = some seqLen) (ht : t < seqLen) :
    parts.flatten[packedStart padFactor seqLengths b + t]? = some (some (b, t)) := by
  obtain ⟨k, hpart⟩ := h.part b seqLen hlen
  have hb := (List.getElem?_eq_some_iff.mp hlen).1
  rw [← h.start b hb, getElem?_flatten hpart (by simp; omega), List.getElem?_append_left (by simpa),
    List.getElem?_map, List.getElem?_range ht, Option.map_some]

theorem TaggedParts.position (h : TaggedParts padFactor seqLengths parts) {p b t : ℕ}
    (hp : parts.flatten[p]? = some (some (b, t))) :
    p = packedStart padFactor seqLengths b + t := by
  obtain ⟨hlt, -⟩ := List.getElem?_eq_some_iff.mp hp
  rw [List.length_flatten] at hlt
  obtain ⟨c, hc, hle, hnext⟩ := exists_part hlt
  rw [List.length_map] at hc
  have hcSeq : c < seqLengths.length := h.length ▸ hc
  obtain ⟨k, hpart⟩ := h.part c _ (List.getElem?_eq_getElem hcSeq)
  obtain ⟨t', rfl⟩ := Nat.exists_eq_add_of_le hle
  have hsucc := @offset_succ (parts.map List.length) c _ (by
    rw [List.getElem?_map, hpart, Option.map_some])
  rw [getElem?_flatten hpart (by omega)] at hp
  rcases Nat.lt_or_ge t' seqLengths[c] with ht | ht
  · rw [List.getElem?_append_left (by simpa), List.getElem?_map, List.getElem?_range ht,
      Option.map_some, Option.some.injEq, Option.some.injEq, Prod.mk.injEq] at hp
    obtain ⟨rfl, rfl⟩ := hp
    rw [h.start c hcSeq]
  · rw [List.getElem?_append_right (by simpa), List.getElem?_replicate] at hp
    split_ifs at hp
    cases Option.some.inj hp

theorem TaggedParts.room (h : TaggedParts padFactor seqLengths parts) {b seqLen : ℕ}
    (hlen : seqLengths[b]? = some seqLen) :
    packedStart padFactor seqLengths b + seqLen ≤ parts.flatten.length := by
  obtain ⟨k, hpart⟩ := h.part b seqLen hlen
  have hb := (List.getElem?_eq_some_iff.mp hlen).1
  have hsucc := @offset_succ (parts.map List.length) b _ (by
    rw [List.getElem?_map, hpart, Option.map_some])
  have htotal := offset_le_sum (parts.map List.length) (b + 1)
  rw [hsucc, h.start b hb, ← List.length_flatten, List.length_append, List.length_map,
    List.length_range] at htotal
  omega

end Layout

section Starts

/-- Parts whose lengths are changed start where they started exactly when no length before
the last is changed. -/
theorem offset_map_eq_iff (r : ℕ → ℕ) (lens : List ℕ) :
    (∀ b < lens.length, offset lens b = offset (lens.map r) b) ↔ ∀ n ∈ lens.dropLast, r n = n := by
  have hsucc : ∀ b (hb : b < lens.length), offset lens (b + 1) = offset lens b + lens[b] ∧
      offset (lens.map r) (b + 1) = offset (lens.map r) b + r lens[b] := fun b hb ↦
    ⟨offset_succ (List.getElem?_eq_getElem hb),
      offset_succ (by rw [List.getElem?_map, List.getElem?_eq_getElem hb, Option.map_some])⟩
  constructor
  · intro h n hn
    obtain ⟨b, hb, rfl⟩ := List.mem_iff_getElem.mp hn
    rw [List.length_dropLast] at hb
    have hlt : b < lens.length := by omega
    obtain ⟨hstep, hstep'⟩ := hsucc b hlt
    have hnow := h b hlt
    have hnext := h (b + 1) (by omega)
    rw [List.getElem_dropLast]
    omega
  · intro h b hb
    induction b with
    | zero => rfl
    | succ b ih =>
      have hlt : b < lens.length := by omega
      obtain ⟨hstep, hstep'⟩ := hsucc b hlt
      have hmem : lens[b] ∈ lens.dropLast := by
        have hget : lens.dropLast[b]? = some lens[b] := by
          rw [List.getElem?_dropLast, if_pos (by omega), List.getElem?_eq_getElem hlt]
        exact List.mem_of_getElem? hget
      rw [hstep, hstep', ih hlt, h _ hmem]

theorem roundUpToMultiple_eq_iff {n multiple : ℕ} :
    roundUpToMultiple n multiple = n ↔ multiple ∣ n := by
  constructor
  · intro h
    exact h ▸ dvd_roundUpToMultiple n multiple
  · intro h
    rw [roundUpToMultiple, if_neg (not_not.mpr (Nat.mod_eq_zero_of_dvd h))]

end Starts

section Exact

variable {padFactor padPackedSeqToMultipleOf cpRank cpSize width : ℕ} {padPackedSeqTo : Option ℕ}
  {seqLengths : List ℕ} {layout : PackedSequences (Option (ℕ × ℕ))} {zero : β} {output : List β}

def readStart (padFactor cpSize : ℕ) (seqLengths : List ℕ) (b : ℕ) : ℕ :=
  if cpSize > 1 then packedStart padFactor seqLengths b else offset seqLengths b

/-- The layout of a pack and the boundaries that come with it. -/
structure TaggedPack (padFactor cpSize : ℕ) (seqLengths : List ℕ)
    (layout : PackedSequences (Option (ℕ × ℕ))) : Prop where
  parts : ∃ parts, TaggedParts padFactor seqLengths parts ∧ layout.allInputIds = parts.flatten
  start : ∀ b < seqLengths.length,
    unpackStart layout.cuSeqlens (some layout.cuSeqlensPadded) cpSize b =
      readStart padFactor cpSize seqLengths b
  stop : ∀ b < seqLengths.length,
    unpackStop seqLengths layout.cuSeqlens (some layout.cuSeqlensPadded) cpSize b =
      readStart padFactor cpSize seqLengths b + seqLengths.getD b 0

theorem taggedPack_of_ok (hpf : 0 < padFactor) (hlens : ∀ seqLen ∈ seqLengths, seqLen ≤ width)
    (h : packSequencesForMegatron padFactor padPackedSeqToMultipleOf padPackedSeqTo none
      (taggedSamples width seqLengths) cpRank cpSize = .ok layout) :
    TaggedPack padFactor cpSize seqLengths layout := by
  rcases List.eq_nil_or_concat (taggedSamples width seqLengths) with hnil | ⟨samples, x, hconcat⟩
  · rw [hnil, packSequencesForMegatron] at h
    cases hmod : padPackedSeqTo.filter (· % padPackedSeqToMultipleOf ≠ 0) with
    | some length =>
      rw [hmod] at h
      cases h
    | none =>
      rw [hmod] at h
      cases h
  rw [List.concat_eq_append] at hconcat
  have hsnd : (samples ++ [x]).map Prod.snd = seqLengths := hconcat ▸ map_snd_taggedSamples
  have hcount : samples.length + 1 = seqLengths.length := by
    rw [← hsnd, List.length_map, List.length_append, List.length_singleton]
  have hparts := @taggedParts_packParts _ padPackedSeqToMultipleOf _ padPackedSeqTo _ _ _ hpf
    hconcat hlens
  have hfits : ∀ y ∈ samples ++ [x], y.2 ≤ y.1.length := hconcat ▸ taggedSamples_fits hlens
  rw [hconcat] at h
  obtain ⟨⟨hall, hcu, hpadded⟩, -⟩ := packs_of_ok hpf hfits h
  have hlen : (paddedLens padFactor samples).length = samples.length := by simp [paddedLens]
  have hround : seqLengths.map (roundUpToMultiple · padFactor) =
      paddedLens padFactor samples ++ [roundUpToMultiple x.2 padFactor] := by
    rw [← hsnd, ← paddedLens, paddedLens_append]
  have hpaddedStart : ∀ b < seqLengths.length, layout.cuSeqlensPadded.getD b 0 =
      packedStart padFactor seqLengths b := fun b hb ↦ by
    have hlt : b < (offsets (paddedLens padFactor samples)).length := by
      rw [length_offsets]
      omega
    rw [hpadded, List.getD_append _ _ _ _ hlt, getD_offsets (by omega), packedStart, hround,
      offset_append (by omega)]
  rw [hsnd] at hcu
  refine ⟨⟨_, hparts, hall⟩, fun b hb ↦ ?_, fun b hb ↦ ?_⟩
  · simp only [unpackStart, readStart]
    split_ifs
    · exact hpaddedStart b hb
    · rw [hcu, getD_offsets hb.le]
  · simp only [unpackStop, readStart]
    split_ifs
    · rw [hpaddedStart b hb]
    · rw [hcu, getD_offsets hb, offset_succ (List.getElem?_eq_getElem hb),
        List.getD_eq_getElem _ _ hb]

def unpackedSample (zero : β) (output : List β) (padFactor cpSize width : ℕ) (seqLengths : List ℕ)
    (b : ℕ) : List β :=
  slice output (readStart padFactor cpSize seqLengths b)
    (readStart padFactor cpSize seqLengths b + seqLengths.getD b 0) ++
      List.replicate (width - seqLengths.getD b 0) zero

theorem unpack_eq (h : TaggedPack padFactor cpSize seqLengths layout)
    (hlens : ∀ seqLen ∈ seqLengths, seqLen ≤ width)
    (hroom : ∀ b < seqLengths.length, readStart padFactor cpSize seqLengths b +
      seqLengths.getD b 0 ≤ output.length) :
    unpackSequencesFromMegatron zero output seqLengths layout.cuSeqlens
        (some layout.cuSeqlensPadded) width cpSize seqLengths.length =
      some ((List.range seqLengths.length).map
        (unpackedSample zero output padFactor cpSize width seqLengths)) := by
  refine mapM_eq_some (List.forall₂_map_right_iff.mpr (List.forall₂_same.mpr fun b hb ↦ ?_))
  have hlt := List.mem_range.mp hb
  have hle : seqLengths.getD b 0 ≤ width := by
    rw [List.getD_eq_getElem _ _ hlt]
    exact hlens _ (List.getElem_mem hlt)
  rw [h.start b hlt, h.stop b hlt, assignSlice_of_length (Nat.zero_le _) (by simpa) (by
    rw [length_slice (hroom b hlt)]
    omega)]
  rw [List.take_zero, List.nil_append, List.drop_replicate, unpackedSample]

theorem getElem?_unpackedSample {b seqLen : ℕ} (hlen : seqLengths[b]? = some seqLen)
    (hroom : readStart padFactor cpSize seqLengths b + seqLen ≤ output.length) (t : ℕ) :
    (t < seqLen → (unpackedSample zero output padFactor cpSize width seqLengths b)[t]? =
        output[readStart padFactor cpSize seqLengths b + t]?) ∧
      (seqLen ≤ t → t < width →
        (unpackedSample zero output padFactor cpSize width seqLengths b)[t]? = some zero) := by
  have hgetD : seqLengths.getD b 0 = seqLen := by rw [List.getD_eq_getElem?_getD, hlen]; rfl
  have hslice : (slice output (readStart padFactor cpSize seqLengths b)
      (readStart padFactor cpSize seqLengths b + seqLen)).length = seqLen := by
    rw [length_slice hroom]
    omega
  rw [unpackedSample, hgetD]
  refine ⟨fun ht ↦ ?_, fun ht htw ↦ ?_⟩
  · rw [List.getElem?_append_left (by omega), getElem?_slice (by omega)]
  · rw [List.getElem?_append_right (by omega), hslice, List.getElem?_replicate, if_pos (by omega)]

theorem getElem?_rows {b seqLen : ℕ} (hlen : seqLengths[b]? = some seqLen) :
    ((List.range seqLengths.length).map
      (unpackedSample zero output padFactor cpSize width seqLengths))[b]? =
        some (unpackedSample zero output padFactor cpSize width seqLengths b) := by
  have hlt := (List.getElem?_eq_some_iff.mp hlen).1
  rw [List.getElem?_map, List.getElem?_range hlt, Option.map_some]

theorem unpacked_of_starts (h : TaggedPack padFactor cpSize seqLengths layout)
    (hlens : ∀ seqLen ∈ seqLengths, seqLen ≤ width)
    (houtput : output.length = layout.allInputIds.length)
    (hstarts : ∀ b < seqLengths.length,
      readStart padFactor cpSize seqLengths b = packedStart padFactor seqLengths b) :
    ∃ rows, unpackSequencesFromMegatron zero output seqLengths layout.cuSeqlens
        (some layout.cuSeqlensPadded) width cpSize seqLengths.length = some rows ∧
      Unpacked layout.allInputIds zero width seqLengths output rows := by
  obtain ⟨parts, hparts, hall⟩ := h.parts
  have hroom : ∀ b seqLen, seqLengths[b]? = some seqLen →
      readStart padFactor cpSize seqLengths b + seqLen ≤ output.length := fun b seqLen hlen ↦ by
    rw [hstarts b (List.getElem?_eq_some_iff.mp hlen).1, houtput, hall]
    exact hparts.room hlen
  have hread := @unpack_eq _ _ _ _ _ _ zero _ h hlens fun b hb ↦ by
    rw [List.getD_eq_getElem _ _ hb]
    exact hroom b _ (List.getElem?_eq_getElem hb)
  refine ⟨_, hread, ⟨by simp, fun row hrow ↦ ?_⟩, fun b seqLen t hlen ht ↦ ?_,
    fun b seqLen t hlen ht htw ↦ ?_⟩
  · obtain ⟨b, hb, rfl⟩ := List.mem_map.mp hrow
    have hlt := List.mem_range.mp hb
    have hle := hroom b _ (List.getElem?_eq_getElem hlt)
    have hwidth := hlens _ (List.getElem_mem hlt)
    rw [unpackedSample, List.getD_eq_getElem _ _ hlt, List.length_append, length_slice hle,
      List.length_replicate]
    omega
  · refine ⟨packedStart padFactor seqLengths b + t, ?_, ?_⟩
    · rw [hall]
      exact hparts.getElem? hlen ht
    · rw [getElem?_rows hlen, Option.bind_some,
        (getElem?_unpackedSample hlen (hroom b seqLen hlen) t).1 ht,
        hstarts b (List.getElem?_eq_some_iff.mp hlen).1]
  · rw [getElem?_rows hlen, Option.bind_some]
    exact (getElem?_unpackedSample hlen (hroom b seqLen hlen) t).2 ht htw

theorem readStart_le (hpf : 0 < padFactor) (b : ℕ) :
    readStart padFactor cpSize seqLengths b ≤ packedStart padFactor seqLengths b := by
  rw [readStart]
  split_ifs
  · exact le_rfl
  · rw [packedStart, offset, offset, ← List.map_take]
    have hsum := List.sum_le_sum (l := seqLengths.take b) (f := fun n ↦ n)
      (g := (roundUpToMultiple · padFactor)) fun n _ ↦ le_roundUpToMultiple hpf
    rwa [List.map_id'] at hsum

theorem starts_of_unpacked (hpf : 0 < padFactor) {other : β} (hother : other ≠ zero)
    (h : TaggedPack padFactor cpSize seqLengths layout)
    (hlens : ∀ seqLen ∈ seqLengths, 1 ≤ seqLen ∧ seqLen ≤ width)
    (hunpack : ∀ output : List β, output.length = layout.allInputIds.length →
      ∃ rows, unpackSequencesFromMegatron zero output seqLengths layout.cuSeqlens
          (some layout.cuSeqlensPadded) width cpSize seqLengths.length = some rows ∧
        Unpacked layout.allInputIds zero width seqLengths output rows) :
    ∀ b < seqLengths.length,
      readStart padFactor cpSize seqLengths b = packedStart padFactor seqLengths b := by
  intro b hb
  by_contra hne
  obtain ⟨parts, hparts, hall⟩ := h.parts
  obtain ⟨seqLen, hlen⟩ : ∃ seqLen, seqLengths[b]? = some seqLen := ⟨_, List.getElem?_eq_getElem hb⟩
  have hpos := (hlens seqLen (List.mem_of_getElem? hlen)).1
  have hwidth : ∀ seqLen ∈ seqLengths, seqLen ≤ width := fun n hn ↦ (hlens n hn).2
  have hroom : ∀ c n, seqLengths[c]? = some n →
      readStart padFactor cpSize seqLengths c + n ≤ layout.allInputIds.length := fun c n hn ↦ by
    have hle := @readStart_le _ cpSize seqLengths hpf c
    have hfit := hparts.room hn
    rw [hall]
    omega
  have hplace := hparts.room hlen
  have hreadRoom := hroom b seqLen hlen
  rw [← hall] at hplace
  -- an output of zeros but for the first token of the sample
  set output := (List.replicate layout.allInputIds.length zero).set
    (packedStart padFactor seqLengths b) other with houtput
  have hlength : output.length = layout.allInputIds.length := by
    rw [houtput, List.length_set, List.length_replicate]
  have hread := @unpack_eq _ _ _ _ _ _ zero output h hwidth fun c hc ↦ by
    rw [List.getD_eq_getElem _ _ hc, hlength]
    exact hroom c _ (List.getElem?_eq_getElem hc)
  obtain ⟨rows, hrows, hunpacked⟩ := hunpack output hlength
  obtain rfl := Option.some.inj (hread.symm.trans hrows)
  obtain ⟨p, hp, hvalue⟩ := hunpacked.tokens b seqLen 0 hlen hpos
  rw [hall] at hp
  rw [getElem?_rows hlen, Option.bind_some,
    (getElem?_unpackedSample hlen (by rwa [hlength]) 0).1 hpos, hparts.position hp, Nat.add_zero,
    Nat.add_zero, houtput, List.getElem?_set_ne (Ne.symm hne), List.getElem?_set_self
      (by rw [List.length_replicate]; omega), List.getElem?_replicate, if_pos (by omega),
    Option.some.injEq] at hvalue
  exact hother hvalue.symm

end Exact

section Unpacks

variable {padFactor padPackedSeqToMultipleOf cpRank cpSize width : ℕ} {padPackedSeqTo : Option ℕ}
  {seqLengths : List ℕ}

theorem pack_zero {pad : α} {samples : List (List α × ℕ)}
    (h : Divides 0 padPackedSeqToMultipleOf padPackedSeqTo) :
    packSequencesForMegatron 0 padPackedSeqToMultipleOf padPackedSeqTo pad samples cpRank cpSize =
      packSequencesForMegatron 1 padPackedSeqToMultipleOf padPackedSeqTo pad samples cpRank
        cpSize := by
  have hnone : needsPadding 0 padPackedSeqToMultipleOf padPackedSeqTo = false :=
    Bool.eq_false_iff.mpr fun hneeds ↦ absurd (h.factor hneeds) (Nat.lt_irrefl 0)
  have hone : needsPadding 1 padPackedSeqToMultipleOf padPackedSeqTo = false := by
    rw [← hnone]
    simp [needsPadding]
  rw [packSequencesForMegatron, packSequencesForMegatron, hnone, hone]
  simp

theorem readStart_eq_iff :
    (∀ b < seqLengths.length,
        readStart padFactor cpSize seqLengths b = packedStart padFactor seqLengths b) ↔
      1 < cpSize ∨ ∀ seqLen ∈ seqLengths.dropLast, padFactor ∣ seqLen := by
  by_cases hcp : cpSize > 1
  · simp only [readStart, if_pos hcp, implies_true, true_iff]
    exact .inl hcp
  · simp only [readStart, if_neg hcp, packedStart, offset_map_eq_iff, roundUpToMultiple_eq_iff]
    exact (or_iff_right hcp).symm

def Undoes (padFactor padPackedSeqToMultipleOf : ℕ) (padPackedSeqTo : Option ℕ)
    (cpRank cpSize width : ℕ) (seqLengths : List ℕ) (padId : α) (inputIds : List (List α))
    (zero : β) (packed : PackedSequences α) : Prop :=
  ∃ layout, packSequencesForMegatron padFactor padPackedSeqToMultipleOf padPackedSeqTo none
      (taggedSamples width seqLengths) cpRank cpSize = .ok layout ∧
    Rides layout.allInputIds padId inputIds packed.allInputIds ∧
    ∀ output : List β, output.length = packed.allInputIds.length →
      ∃ rows, unpackSequencesFromMegatron zero output seqLengths packed.cuSeqlens
          (some packed.cuSeqlensPadded) width cpSize seqLengths.length = some rows ∧
        Unpacked layout.allInputIds zero width seqLengths output rows

theorem undoes_iff_of_pos [Nontrivial β] (zero : β) {padId : α} {inputIds : List (List α)}
    {packed : PackedSequences α} (hpf : 0 < padFactor)
    (hids : inputIds.length = seqLengths.length ∧ ∀ row ∈ inputIds, row.length = width)
    (hlens : ∀ seqLen ∈ seqLengths, 1 ≤ seqLen ∧ seqLen ≤ width)
    (hpack : packSequencesForMegatron padFactor padPackedSeqToMultipleOf padPackedSeqTo padId
      (inputIds.zip seqLengths) cpRank cpSize = .ok packed) :
    Undoes padFactor padPackedSeqToMultipleOf padPackedSeqTo cpRank cpSize width seqLengths padId
        inputIds zero packed ↔
      1 < cpSize ∨ ∀ seqLen ∈ seqLengths.dropLast, padFactor ∣ seqLen := by
  obtain ⟨layout, hlayout⟩ := exists_layout hids.1 hids.2 hpack
  obtain ⟨ids, hidsPack, hrides, -, hcu, hcuPadded⟩ := @pack_of_layout _ _ _ _ _ _ _ padId _ _
    hids.1 hids.2 _ hlayout
  obtain rfl : ids = packed := Except.ok.inj (hidsPack.symm.trans hpack)
  have htagged := taggedPack_of_ok hpf (fun n hn ↦ (hlens n hn).2) hlayout
  obtain ⟨other, hother⟩ := exists_ne zero
  rw [← readStart_eq_iff, Undoes, hcu, hcuPadded, hrides.length_eq]
  constructor
  · rintro ⟨layout', hlayout', -, hunpack⟩
    obtain rfl : layout = layout' := Except.ok.inj (hlayout.symm.trans hlayout')
    exact starts_of_unpacked hpf hother htagged hlens hunpack
  · intro hstarts
    exact ⟨layout, hlayout, hrides, fun output houtput ↦
      unpacked_of_starts htagged (fun n hn ↦ (hlens n hn).2) houtput hstarts⟩

/-- Unpacking gives every output back, sample by sample, exactly where context parallelism
is on, or sequences are not padded one by one, or none before the last needs it. -/
theorem unpack_undoes_pack_iff [Nontrivial β] (zero : β) {padId : α} {inputIds : List (List α)}
    {packed : PackedSequences α}
    (hdivides : Divides padFactor padPackedSeqToMultipleOf padPackedSeqTo)
    (hids : inputIds.length = seqLengths.length ∧ ∀ row ∈ inputIds, row.length = width)
    (hlens : ∀ seqLen ∈ seqLengths, 1 ≤ seqLen ∧ seqLen ≤ width)
    (hpack : packSequencesForMegatron padFactor padPackedSeqToMultipleOf padPackedSeqTo padId
      (inputIds.zip seqLengths) cpRank cpSize = .ok packed) :
    Undoes padFactor padPackedSeqToMultipleOf padPackedSeqTo cpRank cpSize width seqLengths padId
        inputIds zero packed ↔
      1 < cpSize ∨ padFactor ≤ 1 ∨ ∀ seqLen ∈ seqLengths.dropLast, padFactor ∣ seqLen := by
  have hone : ∀ seqLen ∈ seqLengths.dropLast, 1 ∣ seqLen := fun n _ ↦ Nat.one_dvd n
  rcases Nat.eq_zero_or_pos padFactor with rfl | hpos
  · rw [pack_zero hdivides] at hpack
    have hiff := undoes_iff_of_pos zero Nat.one_pos hids hlens hpack
    rw [Undoes, pack_zero hdivides, ← Undoes, hiff]
    exact ⟨fun _ ↦ .inr (.inl (Nat.zero_le 1)), fun _ ↦ .inr hone⟩
  · rw [undoes_iff_of_pos zero hpos hids hlens hpack]
    refine or_congr_right ⟨.inr, fun h ↦ ?_⟩
    rcases h with hle | hdvd
    · obtain rfl : padFactor = 1 := by omega
      exact hone
    · exact hdvd

def pairedIds : List (List ℕ) := [[5, 0], [7, 8]]

/-- The second sample is read one position early. -/
theorem pairedIds_shifted :
    packSequencesForMegatron 2 1 none 0 (pairedIds.zip [1, 2]) 0 1 =
        .ok ⟨[5, 0, 7, 8], [5, 0, 7, 8], 2, [0, 1, 3], [0, 2, 4]⟩ ∧
      unpackSequencesFromMegatron 0 [50, 1, 70, 80] [1, 2] [0, 1, 3] (some [0, 2, 4]) 2 1 2 =
        some [[50, 0], [1, 70]] ∧
      ¬ Undoes 2 1 none 0 1 2 [1, 2] 0 pairedIds 0
        (⟨[5, 0, 7, 8], [5, 0, 7, 8], 2, [0, 1, 3], [0, 2, 4]⟩ : PackedSequences ℕ) := by
  refine ⟨rfl, rfl, fun hundoes ↦ ?_⟩
  have hiff := @undoes_iff_of_pos _ _ 2 1 0 1 2 none [1, 2] _ (0 : ℕ) 0 pairedIds
    ⟨[5, 0, 7, 8], [5, 0, 7, 8], 2, [0, 1, 3], [0, 2, 4]⟩ Nat.two_pos (by decide) (by decide) rfl
  exact absurd (hiff.mp hundoes) (by decide)

/-- With the first sample of two tokens it is read from its place. -/
theorem unpack_undoes_pack_iff_even :
    Undoes 2 1 none 0 1 2 [2, 1] 0 pairedIds 0
      (⟨[5, 0, 7, 0], [5, 0, 7, 0], 2, [0, 2, 3], [0, 2, 4]⟩ : PackedSequences ℕ) := by
  have hiff := @unpack_undoes_pack_iff _ _ 2 1 0 1 2 none [2, 1] _ (0 : ℕ) 0 pairedIds
    ⟨[5, 0, 7, 0], [5, 0, 7, 0], 2, [0, 2, 3], [0, 2, 4]⟩
    ⟨fun _ ↦ Nat.two_pos, fun h ↦ absurd h (by decide)⟩ (by decide) (by decide) rfl
  exact hiff.mpr (.inr (.inr (by decide)))

end Unpacks

end NemoRL.Models.Megatron
