import Mathlib
import NemoRL.Distributed.ContextParallelExact
import NemoRL.Models.Megatron.PackSequences

namespace NemoRL.Models.Megatron

open Foundations.Blocks Foundations.Ragged Distributed.ContextParallel

variable {α : Type}

section Rounding

variable {n multiple : ℕ}

theorem le_roundUpToMultiple (h : 0 < multiple) : n ≤ roundUpToMultiple n multiple := by
  rw [roundUpToMultiple]
  split
  · have hmod := Nat.div_add_mod (n + multiple - 1) multiple
    have hlt := Nat.mod_lt (n + multiple - 1) h
    rw [Nat.mul_comm] at hmod
    omega
  · exact le_rfl

theorem dvd_roundUpToMultiple (n multiple : ℕ) : multiple ∣ roundUpToMultiple n multiple := by
  rw [roundUpToMultiple]
  split
  · exact Nat.dvd_mul_left _ _
  · rename_i h
    exact Nat.dvd_of_mod_eq_zero (not_not.mp h)

theorem roundUpToMultiple_one (n : ℕ) : roundUpToMultiple n 1 = n := by
  rw [roundUpToMultiple, if_neg (by omega)]

end Rounding

section Boundaries

theorem offsets_append (lens : List ℕ) (n : ℕ) :
    offsets (lens ++ [n]) = offsets lens ++ [lens.sum + n] := by
  rw [offsets, List.length_append, List.length_singleton, List.range_succ, List.map_append]
  congr 1
  · apply List.map_congr_left
    intro k hk
    exact offset_append (by have := List.mem_range.mp hk; omega)
  · rw [List.map_singleton, offset, List.take_of_length_le (by simp), List.sum_append]
    rfl

theorem getLastD_offsets (lens : List ℕ) : (offsets lens).getLastD 0 = lens.sum := by
  rw [offsets, List.range_succ, List.map_append, List.map_singleton, List.getLastD_concat,
    offset_length]

theorem cumulative_eq (lens : List ℕ) : cumulative lens = offsets lens := by
  induction lens using List.reverseRecOn with
  | nil => rfl
  | append_singleton lens n ih =>
    rw [offsets_append, cumulative, List.foldl_append, ← cumulative, ih, List.foldl_cons,
      List.foldl_nil, getLastD_offsets]

theorem set_last_offsets (lens : List ℕ) (n x : ℕ) :
    (offsets (lens ++ [n])).set ((offsets (lens ++ [n])).length - 1) (lens.sum + x) =
      offsets (lens ++ [x]) := by
  rw [offsets_append, offsets_append, List.length_append, List.length_singleton,
    Nat.add_sub_cancel, List.set_append_right _ _ le_rfl, Nat.sub_self]
  rfl

end Boundaries

section Padding

variable {padFactor padPackedSeqToMultipleOf : ℕ} {padPackedSeqTo : Option ℕ} {pad : α}

/-- The padded lengths of the samples before the last one is padded to the end of the pack. -/
def paddedLens (padFactor : ℕ) (samples : List (List α × ℕ)) : List ℕ :=
  (samples.map Prod.snd).map (roundUpToMultiple · padFactor)

theorem paddedLens_append (samples : List (List α × ℕ)) (x : List α × ℕ) :
    paddedLens padFactor (samples ++ [x]) =
      paddedLens padFactor samples ++ [roundUpToMultiple x.2 padFactor] := by
  rw [paddedLens, List.map_append, List.map_append]
  rfl

def Padded (pad : α) (x : List α × ℕ) (part : List α) : Prop :=
  ∃ k, part = x.1.take x.2 ++ List.replicate k pad

theorem padSequences_append (runningSeqLen : ℕ) (samples : List (List α × ℕ)) (x : List α × ℕ) :
    padSequences padFactor padPackedSeqToMultipleOf padPackedSeqTo pad runningSeqLen
      (samples ++ [x]) =
      samples.map (fun y ↦ y.1.take y.2 ++
        List.replicate (roundUpToMultiple y.2 padFactor - y.2) pad) ++
      [x.1.take x.2 ++ List.replicate (packedLength padPackedSeqToMultipleOf padPackedSeqTo
        (runningSeqLen + (paddedLens padFactor samples).sum + roundUpToMultiple x.2 padFactor) -
        (runningSeqLen + (paddedLens padFactor samples).sum) - x.2) pad] := by
  induction samples generalizing runningSeqLen with
  | nil => rfl
  | cons y samples ih =>
    rw [List.cons_append, padSequences]
    have hne : (samples ++ [x]).isEmpty = false := by simp
    simp only [hne, Bool.false_eq_true, if_false]
    have hsum : (paddedLens padFactor (y :: samples)).sum =
        roundUpToMultiple y.2 padFactor + (paddedLens padFactor samples).sum := by
      rw [paddedLens, List.map_cons, List.map_cons, List.sum_cons, paddedLens]
    rw [ih, List.map_cons, List.cons_append, hsum, Nat.add_assoc runningSeqLen]

variable {samples : List (List α × ℕ)} {x : List α × ℕ}

theorem map_length_padSequences (hpf : 0 < padFactor)
    (hlens : ∀ y ∈ samples ++ [x], y.2 ≤ y.1.length)
    (hfit : (paddedLens padFactor (samples ++ [x])).sum ≤
      packedLength padPackedSeqToMultipleOf padPackedSeqTo
        (paddedLens padFactor (samples ++ [x])).sum) :
    (padSequences padFactor padPackedSeqToMultipleOf padPackedSeqTo pad 0 (samples ++ [x])).map
      List.length = paddedLens padFactor samples ++
        [packedLength padPackedSeqToMultipleOf padPackedSeqTo
          (paddedLens padFactor (samples ++ [x])).sum - (paddedLens padFactor samples).sum] := by
  have hlen : ∀ y ∈ samples ++ [x], ∀ n, y.2 ≤ n →
      (y.1.take y.2 ++ List.replicate (n - y.2) pad).length = n := by
    intro y hy n hn
    have hy' := hlens y hy
    rw [List.length_append, List.length_take, List.length_replicate]
    omega
  rw [paddedLens_append, List.sum_append, List.sum_singleton] at hfit ⊢
  rw [padSequences_append, List.map_append, List.map_map, List.map_singleton, Nat.zero_add]
  congr 1
  · rw [paddedLens, List.map_map]
    apply List.map_congr_left
    intro y hy
    exact hlen y (List.mem_append_left _ hy) _ (le_roundUpToMultiple hpf)
  · congr 1
    apply hlen x (List.mem_append_right _ (List.mem_singleton_self x))
    have hle := le_roundUpToMultiple (n := x.2) hpf
    omega

theorem paddedBoundaries_eq (hpf : 0 < padFactor)
    (hlens : ∀ y ∈ samples ++ [x], y.2 ≤ y.1.length)
    (hfit : (paddedLens padFactor (samples ++ [x])).sum ≤
      packedLength padPackedSeqToMultipleOf padPackedSeqTo
        (paddedLens padFactor (samples ++ [x])).sum) :
    paddedBoundaries padFactor padPackedSeqToMultipleOf padPackedSeqTo
      ((samples ++ [x]).map Prod.snd) =
      offsets ((padSequences padFactor padPackedSeqToMultipleOf padPackedSeqTo pad 0
        (samples ++ [x])).map List.length) := by
  rw [map_length_padSequences hpf hlens hfit, paddedBoundaries, cumulative_eq, ← paddedLens,
    getLastD_offsets]
  have hsum : (paddedLens padFactor samples).sum ≤ (paddedLens padFactor (samples ++ [x])).sum := by
    rw [paddedLens_append, List.sum_append]
    exact Nat.le_add_right _ _
  rw [← set_last_offsets _ (roundUpToMultiple x.2 padFactor), Nat.add_sub_cancel' (hsum.trans hfit),
    paddedLens_append]

theorem paddedBoundaries_of_not_needsPadding (hpf : 0 < padFactor) (lens : List ℕ)
    (h : needsPadding padFactor padPackedSeqToMultipleOf padPackedSeqTo = false) :
    paddedBoundaries padFactor padPackedSeqToMultipleOf padPackedSeqTo lens = cumulative lens := by
  simp only [needsPadding, decide_eq_false_iff_not, not_or, not_lt] at h
  obtain ⟨hone, hmultiple, hto⟩ := h
  obtain rfl : padFactor = 1 := by omega
  obtain rfl : padPackedSeqTo = none := by simpa using hto
  have hid : lens.map (roundUpToMultiple · 1) = lens := by
    simp only [roundUpToMultiple_one, List.map_id']
  have hpacked : packedLength padPackedSeqToMultipleOf none ((cumulative lens).getLastD 0) =
      (cumulative lens).getLastD 0 := by
    rw [packedLength, if_neg (by omega)]
  rw [paddedBoundaries, hid, hpacked, cumulative_eq]
  induction lens using List.reverseRecOn with
  | nil => rfl
  | append_singleton lens n ih =>
    rw [getLastD_offsets, List.sum_append, List.sum_singleton]
    exact set_last_offsets lens n n

/-- Without padding of its own a pack is the tokens end to end, with padding behind them. -/
theorem flatten_padSequences_one (hlens : ∀ y ∈ samples ++ [x], y.2 ≤ y.1.length) :
    (padSequences 1 padPackedSeqToMultipleOf padPackedSeqTo pad 0 (samples ++ [x])).flatten =
      ((samples ++ [x]).flatMap fun y ↦ y.1.take y.2) ++ List.replicate
        (packedLength padPackedSeqToMultipleOf padPackedSeqTo
          ((samples ++ [x]).flatMap fun y ↦ y.1.take y.2).length -
          ((samples ++ [x]).flatMap fun y ↦ y.1.take y.2).length) pad := by
  have hvalid : ∀ ys : List (List α × ℕ), (∀ y ∈ ys, y.2 ≤ y.1.length) →
      (ys.flatMap fun y ↦ y.1.take y.2).length = (paddedLens 1 ys).sum := by
    intro ys hys
    rw [List.length_flatMap, paddedLens, List.map_map]
    congr 1
    apply List.map_congr_left
    intro y hy
    have hy' := hys y hy
    rw [List.length_take, Function.comp_apply, roundUpToMultiple_one]
    omega
  rw [hvalid _ hlens, padSequences_append, paddedLens_append]
  simp only [roundUpToMultiple_one, Nat.sub_self, List.replicate_zero, List.append_nil,
    Nat.zero_add, List.flatten_append, List.flatten_singleton, List.flatMap_append,
    List.flatMap_singleton, List.sum_append, List.sum_singleton, List.append_assoc,
    Nat.sub_sub]
  rfl

end Padding

section Pack

variable {padFactor padPackedSeqToMultipleOf : ℕ} {padPackedSeqTo : Option ℕ} {pad : α}
  {samples : List (List α × ℕ)}

structure Fits (padFactor padPackedSeqToMultipleOf : ℕ) (padPackedSeqTo : Option ℕ)
    (samples : List (List α × ℕ)) : Prop where
  padFactor_pos : 0 < padFactor
  nonempty : samples ≠ []
  length_le : ∀ x ∈ samples, x.2 ≤ x.1.length
  sum_le : (paddedLens padFactor samples).sum ≤
    packedLength padPackedSeqToMultipleOf padPackedSeqTo (paddedLens padFactor samples).sum
  multiple : ∀ length ∈ padPackedSeqTo, padPackedSeqToMultipleOf ∣ length

def packParts (padFactor padPackedSeqToMultipleOf : ℕ) (padPackedSeqTo : Option ℕ) (pad : α)
    (samples : List (List α × ℕ)) : List (List α) :=
  padSequences padFactor padPackedSeqToMultipleOf padPackedSeqTo pad 0 samples

theorem packSequencesForMegatron_ok (pad : α)
    (h : Fits padFactor padPackedSeqToMultipleOf padPackedSeqTo samples) (cpRank : ℕ) {cpSize : ℕ}
    (hcp : 0 < cpSize) (hfactor : 1 < cpSize → 1 < padFactor) :
    ∃ packed, packSequencesForMegatron padFactor padPackedSeqToMultipleOf padPackedSeqTo pad samples
        cpRank cpSize = .ok packed ∧
      packed.allInputIds =
        (packParts padFactor padPackedSeqToMultipleOf padPackedSeqTo pad samples).flatten ∧
      packed.packedInputIds = ((packParts padFactor padPackedSeqToMultipleOf padPackedSeqTo pad
        samples).map (getTokensOnThisCpRank cpRank cpSize)).flatten ∧
      packed.cuSeqlensPadded = offsets ((packParts padFactor padPackedSeqToMultipleOf
        padPackedSeqTo pad samples).map List.length) := by
  obtain ⟨hpf, hne, hlens, hfit, hmultiple⟩ := h
  obtain ⟨init, x, rfl⟩ : ∃ init x, samples = init ++ [x] :=
    ⟨_, _, (List.dropLast_append_getLast hne).symm⟩
  have hcu : (if needsPadding padFactor padPackedSeqToMultipleOf padPackedSeqTo = true then
      paddedBoundaries padFactor padPackedSeqToMultipleOf padPackedSeqTo
        ((init ++ [x]).map Prod.snd)
      else cumulative ((init ++ [x]).map Prod.snd)) =
      offsets ((packParts padFactor padPackedSeqToMultipleOf padPackedSeqTo pad
        (init ++ [x])).map List.length) := by
    rw [packParts, ← paddedBoundaries_eq hpf hlens hfit]
    split
    · rfl
    · rename_i hnone
      exact (paddedBoundaries_of_not_needsPadding hpf _ (Bool.eq_false_iff.mpr hnone)).symm
  have hmod : padPackedSeqTo.filter (· % padPackedSeqToMultipleOf ≠ 0) = none := by
    apply Option.filter_eq_none_iff.mpr
    intro length hlength
    simpa using Nat.mod_eq_zero_of_dvd (hmultiple length hlength)
  have hnonempty : init ++ [x] ≠ [] := by simp
  have hrank : (fun seqTokens : List α ↦ if cpSize > 1 then
      getTokensOnThisCpRank cpRank cpSize seqTokens else seqTokens) =
      getTokensOnThisCpRank cpRank cpSize := by
    funext seqTokens
    rcases Nat.lt_or_ge 1 cpSize with hlt | hge
    · rw [if_pos hlt]
    · obtain rfl : cpSize = 1 := by omega
      rw [if_neg (by omega)]
      rfl
  rw [packSequencesForMegatron, hmod, hcu]
  dsimp only
  rw [if_neg hnonempty]
  rcases Nat.lt_or_ge 1 padFactor with hlt | hge
  · rw [if_pos hlt, hrank]
    exact ⟨_, rfl, rfl, by rw [packParts, List.flatMap_def], rfl⟩
  · obtain rfl : padFactor = 1 := by omega
    obtain rfl : cpSize = 1 := by
      by_contra hcp'
      exact absurd (hfactor (by omega)) (by omega)
    have hid : getTokensOnThisCpRank (α := α) cpRank 1 = id := rfl
    rw [if_neg (by omega), ← flatten_padSequences_one hlens]
    exact ⟨_, rfl, rfl, by rw [hid, List.map_id, packParts], rfl⟩

theorem sum_packParts (h : Fits padFactor padPackedSeqToMultipleOf padPackedSeqTo samples) :
    (packParts padFactor padPackedSeqToMultipleOf padPackedSeqTo pad samples).flatten.length =
      packedLength padPackedSeqToMultipleOf padPackedSeqTo (paddedLens padFactor samples).sum := by
  obtain ⟨hpf, hne, hlens, hfit, -⟩ := h
  obtain ⟨init, x, rfl⟩ : ∃ init x, samples = init ++ [x] :=
    ⟨_, _, (List.dropLast_append_getLast hne).symm⟩
  have hsum : (paddedLens padFactor init).sum ≤ (paddedLens padFactor (init ++ [x])).sum := by
    rw [paddedLens_append, List.sum_append]
    exact Nat.le_add_right _ _
  rw [List.length_flatten, packParts, map_length_padSequences hpf hlens hfit, List.sum_append,
    List.sum_singleton]
  omega

theorem packParts_padded (h : Fits padFactor padPackedSeqToMultipleOf padPackedSeqTo samples) :
    List.Forall₂ (Padded pad) samples
      (packParts padFactor padPackedSeqToMultipleOf padPackedSeqTo pad samples) := by
  obtain ⟨init, x, rfl⟩ : ∃ init x, samples = init ++ [x] :=
    ⟨_, _, (List.dropLast_append_getLast h.nonempty).symm⟩
  rw [packParts, padSequences_append]
  apply List.rel_append
  · apply List.forall₂_map_right_iff.mpr
    apply List.forall₂_same.mpr
    intro y _
    exact ⟨_, rfl⟩
  · exact .cons ⟨_, rfl⟩ .nil

theorem packParts_splits (pad : α)
    (h : Fits padFactor padPackedSeqToMultipleOf padPackedSeqTo samples)
    {cpSize : ℕ} (hfactor : Splits cpSize padFactor)
    (hpacked : Splits cpSize
      (packedLength padPackedSeqToMultipleOf padPackedSeqTo (paddedLens padFactor samples).sum)) :
    ∀ part ∈ packParts padFactor padPackedSeqToMultipleOf padPackedSeqTo pad samples,
      Splits cpSize part.length := by
  obtain ⟨hpf, hne, hlens, hfit, -⟩ := h
  obtain ⟨init, x, rfl⟩ : ∃ init x, samples = init ++ [x] :=
    ⟨_, _, (List.dropLast_append_getLast hne).symm⟩
  intro part hpart hcp
  have hmem := List.mem_map_of_mem (f := List.length) hpart
  have hinit : ∀ n ∈ paddedLens padFactor init, cpSize * 2 ∣ n := by
    intro n hn
    obtain ⟨m, -, rfl⟩ := List.mem_map.mp hn
    exact (hfactor hcp).trans (dvd_roundUpToMultiple m padFactor)
  rw [packParts, map_length_padSequences hpf hlens hfit] at hmem
  rcases List.mem_append.mp hmem with hmem | hmem
  · exact hinit _ hmem
  · rw [List.mem_singleton.mp hmem]
    exact Nat.dvd_sub (hpacked hcp) (List.dvd_sum hinit)

end Pack

section Parameters

variable {cfg : MegatronCfg}

/-- The longest pack of a batch, each length padded to `sequence_length_pad_multiple`. -/
def maxPackedSeqlen (sequenceLengthPadMultiple : ℕ) (microBatches : List (List ℕ)) : ℕ :=
  (microBatches.map fun lens ↦
    (lens.map (roundUpToMultiple · sequenceLengthPadMultiple)).sum).foldl max 0

theorem dvd_maxPackedSeqlen {d multiple : ℕ} (h : d ∣ multiple) (microBatches : List (List ℕ)) :
    d ∣ maxPackedSeqlen multiple microBatches := by
  rw [maxPackedSeqlen, List.foldl_map]
  apply List.foldlRecOn (motive := fun n ↦ d ∣ n)
  · exact dvd_zero d
  · intro n hn lens _
    have hsum : d ∣ (lens.map (roundUpToMultiple · multiple)).sum := by
      apply List.dvd_sum
      intro k hk
      obtain ⟨m, -, rfl⟩ := List.mem_map.mp hk
      exact h.trans (dvd_roundUpToMultiple m multiple)
    rcases max_choice n (lens.map (roundUpToMultiple · multiple)).sum with heq | heq
    · rw [heq]
      exact hn
    · rw [heq]
      exact hsum

theorem splits_minimumPadFactor (cfg : MegatronCfg) :
    Splits cfg.contextParallelSize (minimumPadFactor cfg) := by
  intro hcp
  rw [minimumPadFactor, if_pos hcp]
  split
  · exact Nat.dvd_mul_right _ _
  · exact dvd_rfl

theorem splits_packedMultiple (h : 1 < packedMultiple cfg) :
    Splits cfg.contextParallelSize (packedMultiple cfg) := by
  intro hcp
  rw [packedMultiple] at h ⊢
  dsimp only at h ⊢
  generalize (if cfg.moeTokenDispatcherType = some "flex" ∧
    cfg.moeFlexDispatcherBackend = some "hybridep" then max (getFp8TokenAlignment cfg) 128
    else getFp8TokenAlignment cfg) = divisor at h ⊢
  split at h
  · rename_i hdivisor
    rw [if_pos hdivisor, if_pos hcp]
    split
    · exact (Nat.dvd_mul_left _ _).mul_right _
    · exact Nat.dvd_mul_left _ _
  · omega

theorem getPackSequenceParameters_ok {pad maxSeqLen padFactor multiple : ℕ}
    {padPackedSeqTo : Option ℕ}
    (h : getPackSequenceParametersForMegatron cfg pad maxSeqLen =
      .ok (padFactor, multiple, padPackedSeqTo)) :
    padFactor = pad ∧ multiple = packedMultiple cfg ∧ Splits cfg.contextParallelSize padFactor ∧
      (∀ length ∈ padPackedSeqTo, length = roundUpToMultiple maxSeqLen multiple) := by
  rw [getPackSequenceParametersForMegatron] at h
  split at h
  · cases h
  · rename_i hmod
    simp only [Except.ok.injEq, Prod.mk.injEq] at h
    obtain ⟨rfl, rfl, rfl⟩ := h
    refine ⟨rfl, rfl, ?_, ?_⟩
    · intro hcp
      exact (splits_minimumPadFactor cfg hcp).trans (Nat.dvd_of_mod_eq_zero (not_not.mp hmod))
    · intro length hlength
      split at hlength
      · exact (Option.some.inj hlength).symm
      · cases hlength

theorem splits_packedLength {pad padFactor multiple sequenceLengthPadMultiple : ℕ}
    {padPackedSeqTo : Option ℕ} {microBatches : List (List ℕ)}
    (hmultiple : Splits cfg.contextParallelSize sequenceLengthPadMultiple)
    (h : getPackSequenceParametersForMegatron cfg pad
      (maxPackedSeqlen sequenceLengthPadMultiple microBatches) =
      .ok (padFactor, multiple, padPackedSeqTo)) (samples : List (List α × ℕ)) :
    Splits cfg.contextParallelSize
      (packedLength multiple padPackedSeqTo (paddedLens padFactor samples).sum) := by
  obtain ⟨-, rfl, hfactor, hto⟩ := getPackSequenceParameters_ok h
  intro hcp
  have hround : ∀ n, cfg.contextParallelSize * 2 ∣ n →
      cfg.contextParallelSize * 2 ∣ roundUpToMultiple n (packedMultiple cfg) := by
    intro n hn
    rcases Nat.lt_or_ge 1 (packedMultiple cfg) with hlt | hge
    · exact (splits_packedMultiple hlt hcp).trans (dvd_roundUpToMultiple _ _)
    · rw [roundUpToMultiple]
      split
      · interval_cases hmul : packedMultiple cfg
        · simp
        · simpa using hn
      · exact hn
  have hsum : cfg.contextParallelSize * 2 ∣ (paddedLens padFactor samples).sum := by
    apply List.dvd_sum
    intro n hn
    obtain ⟨m, -, rfl⟩ := List.mem_map.mp hn
    exact (hfactor hcp).trans (dvd_roundUpToMultiple m padFactor)
  cases padPackedSeqTo with
  | some length =>
    rw [packedLength, hto length rfl]
    exact hround _ (dvd_maxPackedSeqlen (hmultiple hcp) microBatches)
  | none =>
    rw [packedLength]
    split
    · exact hround _ hsum
    · exact hsum

end Parameters

section Logprobs

variable {β ρ τ : Type}

/-- What the model computes on a pack position by position, `row i t` at position `t` of
sequence `i`. -/
def packedRows (row : ℕ → ℕ → ρ) (cuSeqlensPadded : List ℕ) : List ρ :=
  (List.range (cuSeqlensPadded.length - 1)).flatMap fun i ↦
    (List.range ((bounds cuSeqlensPadded i).2 - (bounds cuSeqlensPadded i).1)).map (row i)

def paddedRows (row : ℕ → ℕ → ρ) (batchSize width : ℕ) : List (List ρ) :=
  (List.range batchSize).map fun i ↦ (List.range width).map (row i)

variable (logprob : ρ → τ → β) (row : ℕ → ℕ → ρ) (pad : τ) (zero : β) (cpSize S : ℕ)
  (samples : List (List τ × ℕ))

/-- A pack `packedIds` with these boundaries, and the log probabilities `out` read off it. -/
structure PackedExactly (cuSeqlensPadded : List ℕ) (packedIds : List τ) (out : List (List β)) :
    Prop where
  count : cuSeqlensPadded.length = samples.length + 1
  packedLength : cuSeqlensPadded.getLast? = some packedIds.length
  divisible : cpSize > 1 → ∀ boundary ∈ cuSeqlensPadded, cpSize * 2 ∣ boundary
  tokens : ∀ (i : ℕ) (x : List τ × ℕ) (t : ℕ), samples[i]? = some x → t < x.2 →
    packedIds[cuSeqlensPadded.getD i 0 + t]? = x.1[t]?
  -- Every position has the next token of its own sequence, the last position the first one.
  targets : ∀ cpRank < cpSize, ∃ rolled,
    rolledTargets pad cpSize cuSeqlensPadded packedIds cpRank = some rolled ∧
    rolled.length * cpSize = packedIds.length ∧
    ∀ x ∈ (shareOut cuSeqlensPadded cpSize cpRank (List.range packedIds.length)).zip rolled,
      ∃ i p, i < samples.length ∧ (bounds cuSeqlensPadded i).1 ≤ p ∧
        p < (bounds cuSeqlensPadded i).2 ∧ x.1 = p ∧
        packedIds[if p + 1 < (bounds cuSeqlensPadded i).2 then p + 1
          else (bounds cuSeqlensPadded i).1]? = some x.2
  result : fromParallelLogitsToLogprobsPackedSequences logprob pad zero cpSize cuSeqlensPadded
    (fun cpRank ↦ shareOut cuSeqlensPadded cpSize cpRank (packedRows row cuSeqlensPadded))
    (fun _ ↦ packedIds) S false = some out
  logprobs : ∀ (i : ℕ) (x : List τ × ℕ) (t : ℕ), samples[i]? = some x → t + 1 < x.2 →
    ∃ token, x.1[t + 1]? = some token ∧ out[i]?.bind (·[t]?) = some (logprob (row i t) token)

theorem packedRows_eq {parts : List (List τ)} :
    packedRows row (offsets (parts.map List.length)) =
      ((List.range parts.length).map fun i ↦
        (List.range ((parts.map List.length).getD i 0)).map (row i)).flatten := by
  rw [packedRows, length_offsets, List.length_map, Nat.add_sub_cancel, List.flatMap_def]
  congr 1
  apply List.map_congr_left
  intro i hi
  have hi' : i < (parts.map List.length).length := by
    rw [List.length_map]
    exact List.mem_range.mp hi
  have hget : (parts.map List.length)[i]? = some ((parts.map List.length)[i]) :=
    List.getElem?_eq_getElem hi'
  rw [bounds_offsets hi', offset_succ hget, List.getD_eq_getElem?_getD, hget,
    Nat.add_sub_cancel_left]
  rfl

variable {pad cpSize S samples}

theorem packedExactly_of_parts {parts : List (List τ)} (hcp : 0 < cpSize)
    (hpadded : List.Forall₂ (Padded pad) samples parts)
    (hlens : ∀ x ∈ samples, x.1.length = S ∧ 1 ≤ x.2 ∧ x.2 ≤ S)
    (hsplit : ∀ part ∈ parts, Splits cpSize part.length) :
    ∃ out, PackedExactly logprob row pad zero cpSize S samples
      (offsets (parts.map List.length)) parts.flatten out := by
  let rows := (List.range parts.length).map fun i ↦
    (List.range ((parts.map List.length).getD i 0)).map (row i)
  have hcount : samples.length = parts.length := hpadded.length_eq
  have hrows : List.Forall₂ (fun row part ↦ row.length = part.length) rows parts := by
    apply List.forall₂_iff_get.mpr
    constructor
    · rw [List.length_map, List.length_range]
    · intro i hi hi'
      simp [rows, hi']
  have hrowLens : rows.map List.length = parts.map List.length := by
    have heq : List.Forall₂ (· = ·) (rows.map List.length) (parts.map List.length) := by
      rw [List.forall₂_map_left_iff, List.forall₂_map_right_iff]
      exact hrows
    rwa [List.forall₂_eq_eq_eq] at heq
  have hpart : ∀ (i : ℕ) (x : List τ × ℕ), samples[i]? = some x → ∃ part : List τ,
      parts[i]? = some part ∧ x.2 ≤ part.length ∧ ∀ t < x.2, part[t]? = x.1[t]? := by
    intro i x hx
    obtain ⟨hi, rfl⟩ := List.getElem?_eq_some_iff.mp hx
    obtain ⟨hlen, hpos, hle⟩ := hlens samples[i] (List.getElem_mem hi)
    obtain ⟨k, hk⟩ := (List.forall₂_iff_get.mp hpadded).2 i hi (hcount ▸ hi)
    simp only [List.get_eq_getElem] at hk
    refine ⟨parts[i], List.getElem?_eq_getElem (hcount ▸ hi), ?_, ?_⟩
    · rw [hk, List.length_append, List.length_take]
      omega
    · intro t ht
      rw [hk, List.getElem?_append_left (by rw [List.length_take]; omega),
        List.getElem?_take_of_lt ht]
  let logprobs := List.zipWith (nextLogprobs logprob) rows parts
  have hlogLens : logprobs.map List.length = parts.map List.length :=
    map_length_zipWith hrows fun hlen ↦ length_nextLogprobs hlen
  have hdvd : cpSize ∣ parts.flatten.length := by
    rw [List.length_flatten]
    apply List.dvd_sum
    intro n hn
    obtain ⟨part, hpart, rfl⟩ := List.mem_map.mp hn
    exact (hsplit part hpart).dvd hcp
  refine ⟨(List.range parts.length).map
    (unpackedRow zero (offsets (parts.map List.length)) S logprobs.flatten), ?_⟩
  constructor
  · rw [length_offsets, List.length_map, hcount]
  · rw [offsets, List.range_succ, List.map_append, List.map_singleton, List.getLast?_concat,
      offset_length, List.length_flatten]
  · intro hlt boundary hboundary
    obtain ⟨k, -, rfl⟩ := List.mem_map.mp hboundary
    apply dvd_offset
    intro n hn
    obtain ⟨part, hpart, rfl⟩ := List.mem_map.mp hn
    exact hsplit part hpart hlt
  · intro i x t hx ht
    obtain ⟨part, hparts, hle, htokens⟩ := hpart i x hx
    have hi := (List.getElem?_eq_some_iff.mp hparts).1
    rw [getD_offsets (by rw [List.length_map]; omega), getElem?_flatten hparts (by omega),
      htokens t ht]
  · intro cpRank hrank
    obtain ⟨rolled, hrolled, hlen, hwithin⟩ := rolledTargets_within pad hcp hsplit hrank
    refine ⟨rolled, hrolled, by rw [hlen, Nat.div_mul_cancel hdvd], ?_⟩
    intro x hx
    obtain ⟨i, part, t, hparts, ht, hp, htarget⟩ := hwithin x hx
    have hi := (List.getElem?_eq_some_iff.mp hparts).1
    have hsucc : offset (parts.map List.length) (i + 1) =
        offset (parts.map List.length) i + part.length := by
      apply offset_succ
      rw [List.getElem?_map, hparts]
      rfl
    have hbounds : bounds (offsets (parts.map List.length)) i = (offset (parts.map List.length) i,
        offset (parts.map List.length) (i + 1)) := bounds_offsets (by rwa [List.length_map])
    refine ⟨i, x.1, by omega, ?_, ?_, rfl, ?_⟩
    · rw [hbounds]
      exact hp.symm ▸ Nat.le_add_right _ _
    · rw [hbounds, hp]
      dsimp only
      omega
    rw [hbounds]
    dsimp only
    split
    · rw [Nat.mod_eq_of_lt (by omega)] at htarget
      rw [hp, Nat.add_assoc, getElem?_flatten hparts (by omega)]
      exact htarget
    · have hlast : t + 1 = part.length := by omega
      rw [hlast, Nat.mod_self] at htarget
      have hfirst := getElem?_flatten hparts (t := 0) (by omega)
      rw [Nat.add_zero] at hfirst
      rw [hfirst]
      exact htarget
  · have hshare : (fun cpRank ↦ shareOut (offsets (parts.map List.length)) cpSize cpRank
        (packedRows row (offsets (parts.map List.length)))) =
        fun cpRank ↦ (rows.map (getTokensOnThisCpRank cpRank cpSize)).flatten := by
      funext cpRank
      rw [packedRows_eq, ← shareOut_flatten, hrowLens]
    rw [hshare]
    exact fromParallelLogitsToLogprobsPackedSequences_eq hcp hrows hsplit S
  · intro i x t hx ht
    obtain ⟨part, hparts, hle, htokens⟩ := hpart i x hx
    have hi := (List.getElem?_eq_some_iff.mp hparts).1
    obtain ⟨hlen, -, hS⟩ := hlens x (List.mem_of_getElem? hx)
    have htoken : x.1[t + 1]? = some x.1[t + 1] := List.getElem?_eq_getElem (by omega)
    have hrow : rows[i]? = some ((List.range part.length).map (row i)) := by
      rw [List.getElem?_map, List.getElem?_range hi, Option.map_some, List.getD_eq_getElem?_getD,
        List.getElem?_map, hparts]
      rfl
    have hlog : logprobs[i]? =
        some (nextLogprobs logprob ((List.range part.length).map (row i)) part) := by
      rw [List.getElem?_zipWith, hrow, hparts]
    have hlogLen : (nextLogprobs logprob ((List.range part.length).map (row i)) part).length =
        part.length := length_nextLogprobs (by rw [List.length_map, List.length_range])
    refine ⟨_, htoken, ?_⟩
    rw [List.getElem?_map, List.getElem?_range hi, Option.map_some, Option.bind_some, ← hlogLens,
      getElem?_unpackedRow hlog (by omega) (by omega), getElem?_nextLogprobs (by omega),
      List.getElem?_map, List.getElem?_range (by omega), htokens (t + 1) (by omega), htoken]
    rfl

variable (pad S samples) in
/-- Packed log probabilities are those of the batch that was not packed. -/
theorem packed_logprobs_exact {cfg : MegatronCfg} {padIndividual padFactor multiple : ℕ}
    {padPackedSeqTo : Option ℕ} {sequenceLengthPadMultiple : ℕ} {microBatches : List (List ℕ)}
    (hcp : 0 < cfg.contextParallelSize)
    (hpad : 0 < padIndividual)
    (hmultiple : Splits cfg.contextParallelSize sequenceLengthPadMultiple)
    (hparams : getPackSequenceParametersForMegatron cfg padIndividual
      (maxPackedSeqlen sequenceLengthPadMultiple microBatches) =
      .ok (padFactor, multiple, padPackedSeqTo))
    (hne : samples ≠ []) (hlens : ∀ x ∈ samples, x.1.length = S ∧ 1 ≤ x.2 ∧ x.2 ≤ S)
    (hfit : ∀ length ∈ padPackedSeqTo, (paddedLens padFactor samples).sum ≤ length) :
    ∃ (cuSeqlensPadded : List ℕ) (packedIds : List τ) (out : List (List β)),
      (∀ cpRank < cfg.contextParallelSize, ∃ packed,
        packSequencesForMegatron padFactor multiple padPackedSeqTo pad samples cpRank
          cfg.contextParallelSize = .ok packed ∧
        packed.cuSeqlensPadded = cuSeqlensPadded ∧ packed.allInputIds = packedIds ∧
        packed.packedInputIds =
          shareOut cuSeqlensPadded cfg.contextParallelSize cpRank packedIds ∧
        packed.packedInputIds.length * cfg.contextParallelSize = packedIds.length) ∧
      PackedExactly logprob row pad zero cfg.contextParallelSize S samples cuSeqlensPadded
        packedIds out ∧
      ∀ (width : ℕ) (row' : ℕ → ℕ → ρ), S ≤ width → Splits cfg.contextParallelSize width →
        (∀ (i : ℕ) (x : List τ × ℕ) (t : ℕ), samples[i]? = some x → t < x.2 → row' i t = row i t) →
        ∀ (i : ℕ) (x : List τ × ℕ) (t : ℕ), samples[i]? = some x → t + 1 < x.2 →
          (fromParallelLogitsToLogprobs logprob pad cfg.contextParallelSize
            (batchLogits cfg.contextParallelSize (paddedRows row' samples.length width))
            (samples.map Prod.fst))[i]?.bind (·[t]?) = out[i]?.bind (·[t]?) := by
  obtain ⟨hfactor, hmult, hsplitFactor, hto⟩ := getPackSequenceParameters_ok hparams
  have hsplitPacked := splits_packedLength hmultiple hparams samples
  have hfits : Fits padFactor multiple padPackedSeqTo samples := by
    refine ⟨by omega, hne, fun x hx ↦ ?_, ?_, ?_⟩
    · obtain ⟨hlen, -, hle⟩ := hlens x hx
      omega
    · cases padPackedSeqTo with
      | some length => exact hfit length rfl
      | none =>
        rw [packedLength]
        split
        · exact le_roundUpToMultiple (by omega)
        · exact le_rfl
    · intro length hlength
      rw [hto length hlength]
      exact dvd_roundUpToMultiple _ _
  have hlarge : 1 < cfg.contextParallelSize → 1 < padFactor := by
    intro hlt
    have hle := Nat.le_of_dvd (by omega) (hsplitFactor hlt)
    omega
  have hsplit := packParts_splits pad hfits hsplitFactor hsplitPacked
  obtain ⟨out, hout⟩ := packedExactly_of_parts logprob row zero hcp (packParts_padded hfits) hlens
    hsplit
  refine ⟨_, _, out, ?_, hout, ?_⟩
  · intro cpRank hrank
    obtain ⟨packed, hpacked, hall, hlocal, hcu⟩ := packSequencesForMegatron_ok pad hfits cpRank hcp
      hlarge
    have hlen := length_flatMap_getTokens (fun part : List τ ↦ (rfl : (id part).length = _)) hcp
      hsplit hrank
    have hdvd : cfg.contextParallelSize ∣
        (packParts padFactor multiple padPackedSeqTo pad samples).flatten.length := by
      rw [List.length_flatten]
      apply List.dvd_sum
      intro n hn
      obtain ⟨part, hpart, rfl⟩ := List.mem_map.mp hn
      exact (hsplit part hpart).dvd hcp
    refine ⟨packed, hpacked, hcu, hall, hlocal.trans (shareOut_flatten _ _ _).symm, ?_⟩
    rw [hlocal]
    exact (congrArg (· * cfg.contextParallelSize) hlen).trans (Nat.div_mul_cancel hdvd)
  · intro width row' hS hwidth hrow i x t hx ht
    obtain ⟨token, htoken, hvalue⟩ := hout.logprobs i x t hx ht
    have hi := (List.getElem?_eq_some_iff.mp hx).1
    have hmem := List.mem_of_getElem? hx
    obtain ⟨hlen, -, hle⟩ := hlens x hmem
    have hrows : ∀ row ∈ paddedRows row' samples.length width, row.length = width := by
      intro row hrow
      obtain ⟨j, -, rfl⟩ := List.mem_map.mp hrow
      rw [List.length_map, List.length_range]
    have htargets : ∀ tokens ∈ samples.map Prod.fst, tokens.length = S := by
      intro tokens htokens
      obtain ⟨y, hy, rfl⟩ := List.mem_map.mp htokens
      exact (hlens y hy).1
    have hown : (paddedRows row' samples.length width)[i]? =
        some ((List.range width).map (row' i)) := by
      rw [paddedRows, List.getElem?_map, List.getElem?_range hi]
      rfl
    have htokens : (samples.map Prod.fst)[i]? = some x.1 := by
      rw [List.getElem?_map, hx]
      rfl
    rw [hvalue, getElem?_fromParallelLogitsToLogprobs hcp hS hwidth hrows htargets hown htokens
      (by omega), List.getElem?_map, List.getElem?_range (by omega), htoken, Option.map_some,
      hrow i x t hx (by omega)]
    rfl

/-- Two sequences on two context parallel ranks, packed to the longest pack of the batch. -/
theorem packed_logprobs_exact_two :
    ∃ (cuSeqlensPadded packedIds : List ℕ) (out : List (List (ℕ × ℕ))),
      (∀ cpRank < 2, ∃ packed,
        packSequencesForMegatron 4 1 (some 16) 0 [([1, 2, 3, 0, 0], 3), ([4, 5, 6, 7, 8], 5)] cpRank
          2 = .ok packed ∧ packed.packedInputIds.length * 2 = packedIds.length) ∧
      cuSeqlensPadded.getLast? = some packedIds.length ∧
      fromParallelLogitsToLogprobsPackedSequences Prod.mk 0 (0, 0) 2 cuSeqlensPadded
        (fun cpRank ↦ shareOut cuSeqlensPadded 2 cpRank
          (packedRows (fun i t ↦ 10 * i + t) cuSeqlensPadded))
        (fun _ ↦ packedIds) 5 false = some out ∧
      out[1]?.bind (·[3]?) = some (13, 8) := by
  have hmultiple : Splits 2 4 := fun _ ↦ by decide
  have hparams : getPackSequenceParametersForMegatron
      { tensorModelParallelSize := 1, sequenceParallel := false, pipelineModelParallelSize := 2,
        contextParallelSize := 2 } 4 (maxPackedSeqlen 4 [[3, 5], [13]]) = .ok (4, 1, some 16) := rfl
  have hlens : ∀ x ∈ [([1, 2, 3, 0, 0], 3), ([4, 5, 6, 7, 8], 5)],
      x.1.length = 5 ∧ 1 ≤ x.2 ∧ x.2 ≤ 5 := by decide
  obtain ⟨cu, packedIds, out, hpacks, hexact, -⟩ := packed_logprobs_exact Prod.mk
    (fun i t ↦ 10 * i + t) 0 (0, 0) 5 _ (by decide) (by decide) hmultiple hparams
    (List.cons_ne_nil _ _) hlens (by decide)
  refine ⟨cu, packedIds, out, ?_, hexact.packedLength, hexact.result, ?_⟩
  · intro cpRank hrank
    obtain ⟨packed, hpacked, -, -, -, hlen⟩ := hpacks cpRank hrank
    exact ⟨packed, hpacked, hlen⟩
  · obtain ⟨token, htoken, hvalue⟩ := hexact.logprobs 1 _ 3 rfl (by decide)
    obtain rfl : 8 = token := Option.some.inj htoken
    exact hvalue

end Logprobs

end NemoRL.Models.Megatron
