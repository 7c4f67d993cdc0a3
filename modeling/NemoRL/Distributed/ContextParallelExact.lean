import Mathlib
import NemoRL.Foundations.Positions
import NemoRL.Foundations.Ragged
import NemoRL.Distributed.ContextParallel

namespace NemoRL.Distributed.ContextParallel

open Foundations.Positions Foundations.Blocks Foundations.Ragged

variable {α β γ ρ τ : Type}

def Splits (cpSize n : ℕ) : Prop := cpSize > 1 → cpSize * 2 ∣ n

section Zigzag

variable {cpSize cpRank : ℕ}

theorem Splits.dvd {n : ℕ} (h : Splits cpSize n) (hcp : 0 < cpSize) : cpSize ∣ n := by
  rcases Nat.lt_or_ge 1 cpSize with hlt | hge
  · exact (Dvd.intro 2 rfl).trans (h hlt)
  · obtain rfl : cpSize = 1 := by omega
    exact one_dvd n

theorem getTokensOnThisCpRank_one (cpRank : ℕ) (xs : List α) :
    getTokensOnThisCpRank cpRank 1 xs = xs := rfl

theorem getTokensOnThisCpRank_of_lt (h : 1 < cpSize) (cpRank : ℕ) (xs : List α) :
    getTokensOnThisCpRank cpRank cpSize xs =
      block (xs.length / (cpSize * 2)) xs cpRank ++
        block (xs.length / (cpSize * 2)) xs (cpSize * 2 - cpRank - 1) := by
  rw [getTokensOnThisCpRank, if_neg (by omega)]

theorem mem_of_mem_getTokens {xs : List α} {x : α}
    (h : x ∈ getTokensOnThisCpRank cpRank cpSize xs) : x ∈ xs := by
  have hblock : ∀ {size i : ℕ}, x ∈ block size xs i → x ∈ xs := fun h ↦
    List.mem_of_mem_drop (List.mem_of_mem_take h)
  rw [getTokensOnThisCpRank] at h
  split at h
  · exact h
  · exact (List.mem_append.mp h).elim hblock hblock

theorem map_getTokensOnThisCpRank (f : α → β) (tokens : List α) :
    (getTokensOnThisCpRank cpRank cpSize tokens).map f =
      getTokensOnThisCpRank cpRank cpSize (tokens.map f) := by
  by_cases hcp : cpSize = 1
  · rw [getTokensOnThisCpRank, getTokensOnThisCpRank, if_pos hcp, if_pos hcp]
  · simp only [getTokensOnThisCpRank, if_neg hcp, List.length_map, List.map_append, block, map_slice]

theorem length_chunks {xs : List α} (h : cpSize * 2 ∣ xs.length) {ind : ℕ}
    (hind : ind < cpSize * 2) :
    (block (xs.length / (cpSize * 2)) xs ind).length = xs.length / (cpSize * 2) := by
  apply length_block
  calc (ind + 1) * (xs.length / (cpSize * 2))
      ≤ cpSize * 2 * (xs.length / (cpSize * 2)) := Nat.mul_le_mul_right _ hind
    _ = xs.length := Nat.mul_div_cancel' h

theorem length_getTokensOnThisCpRank {xs : List α} (hsplit : Splits cpSize xs.length)
    (hrank : cpRank < cpSize) :
    (getTokensOnThisCpRank cpRank cpSize xs).length = xs.length / cpSize := by
  rcases Nat.lt_or_ge 1 cpSize with hlt | hge
  · have hdvd := hsplit hlt
    rw [getTokensOnThisCpRank_of_lt hlt, List.length_append, length_chunks hdvd (by omega),
      length_chunks hdvd (by omega)]
    obtain ⟨m, hm⟩ := hdvd
    rw [hm, Nat.mul_div_cancel_left _ (by omega), Nat.mul_assoc,
      Nat.mul_div_cancel_left _ (by omega), Nat.two_mul]
  · obtain rfl : cpSize = 1 := by omega
    rw [getTokensOnThisCpRank_one, Nat.div_one]

theorem block_zipWith (f : α → β → γ) (xs : List α) (ys : List β) (size i : ℕ) :
    block size (List.zipWith f xs ys) i = List.zipWith f (block size xs i) (block size ys i) := by
  rw [block_eq, block_eq, block_eq, List.drop_zipWith, List.take_zipWith]

theorem getTokensOnThisCpRank_zipWith (f : α → β → γ) {xs : List α} {ys : List β}
    (hlen : xs.length = ys.length) (hsplit : Splits cpSize xs.length) (hrank : cpRank < cpSize) :
    getTokensOnThisCpRank cpRank cpSize (List.zipWith f xs ys) =
      List.zipWith f (getTokensOnThisCpRank cpRank cpSize xs)
        (getTokensOnThisCpRank cpRank cpSize ys) := by
  rcases Nat.lt_or_ge 1 cpSize with hlt | hge
  · have hzip : (List.zipWith f xs ys).length = xs.length := by
      rw [List.length_zipWith, ← hlen, Nat.min_self]
    have hdvd := hsplit hlt
    rw [getTokensOnThisCpRank_of_lt hlt, getTokensOnThisCpRank_of_lt hlt,
      getTokensOnThisCpRank_of_lt hlt, hzip, ← hlen, List.zipWith_append, block_zipWith,
      block_zipWith]
    rw [length_chunks hdvd (by omega), hlen, length_chunks (hlen ▸ hdvd) (by omega)]
  · obtain rfl : cpSize = 1 := by omega
    rfl

theorem chunkTwo_append {xs ys : List α} (h : xs.length = ys.length) :
    chunkTwo (xs ++ ys) = [xs, ys] := by
  have hlen : (xs ++ ys).length = ys.length + ys.length := by rw [List.length_append, h]
  have hsize : (ys.length + ys.length + 1) / 2 = xs.length := by omega
  rw [chunkTwo, hlen, if_neg (by omega), hsize, List.take_left, List.drop_left]

theorem chunkIndices_perm (cpSize : ℕ) :
    ((List.range cpSize).flatMap fun cpRank ↦ [cpRank, 2 * cpSize - cpRank - 1]).Perm
      (List.range (cpSize * 2)) := by
  apply (List.flatMap_append_perm (List.range cpSize) (fun cpRank ↦ [cpRank])
    (fun cpRank ↦ [2 * cpSize - cpRank - 1])).symm.trans
  rw [List.flatMap_singleton', ← List.map_eq_flatMap]
  have hback : ((List.range cpSize).map fun cpRank ↦ 2 * cpSize - cpRank - 1).Perm
      ((List.range cpSize).map (cpSize + ·)) := by
    apply (List.perm_ext_iff_of_nodup _ _).mpr
    · intro k
      simp only [List.mem_map, List.mem_range]
      constructor
      · rintro ⟨r, hr, rfl⟩
        exact ⟨cpSize - r - 1, by omega, by omega⟩
      · rintro ⟨r, hr, rfl⟩
        exact ⟨cpSize - r - 1, by omega, by omega⟩
    · apply List.nodup_range.map_on
      intro a ha b hb hab
      have ha' := List.mem_range.mp ha
      have hb' := List.mem_range.mp hb
      omega
    · exact List.nodup_range.map fun a b hab ↦ Nat.add_left_cancel hab
  rw [Nat.mul_two, List.range_add]
  exact hback.append_left _

theorem allgather_congr {f g : ℕ → List α} (h : ∀ cpRank < cpSize, f cpRank = g cpRank) :
    allgatherCpShardedTensor cpSize f = allgatherCpShardedTensor cpSize g := by
  rw [allgatherCpShardedTensor, allgatherCpShardedTensor, List.flatMap_congr fun cpRank hrank ↦
    congrArg chunkTwo (h cpRank (List.mem_range.mp hrank))]

/-- Gathering the ranks' parts of a sequence gives the sequence back. -/
theorem allgather_getTokens {xs : List α} (hcp : 1 < cpSize) (hsplit : cpSize * 2 ∣ xs.length) :
    allgatherCpShardedTensor cpSize (fun cpRank ↦ getTokensOnThisCpRank cpRank cpSize xs) = xs := by
  let m := xs.length / (cpSize * 2)
  let indices := (List.range cpSize).flatMap fun cpRank ↦ [cpRank, 2 * cpSize - cpRank - 1]
  have hchunks : ((List.range cpSize).flatMap fun cpRank ↦
      chunkTwo (getTokensOnThisCpRank cpRank cpSize xs)) = indices.map (block m xs) := by
    rw [List.map_flatMap]
    apply List.flatMap_congr
    intro cpRank hrank
    have hlt := List.mem_range.mp hrank
    rw [getTokensOnThisCpRank_of_lt hcp, chunkTwo_append, Nat.mul_comm 2 cpSize]
    · rfl
    · rw [length_chunks hsplit (by omega), length_chunks hsplit (by omega)]
  have hzip : (indices.map (block m xs)).zip indices = indices.map fun k ↦ (block m xs k, k) := by
    rw [List.zip_map_left]
    conv_lhs => rw [← List.map_id indices, List.zip_map', List.map_map]
    rfl
  have hanti : ∀ a b : List α × ℕ,
      a ∈ (indices.map fun k ↦ (block m xs k, k)).mergeSort (·.2 ≤ ·.2) →
      b ∈ (List.range (cpSize * 2)).map (fun k ↦ (block m xs k, k)) →
      a.2 ≤ b.2 → b.2 ≤ a.2 → a = b := by
    intro a b ha hb hab hba
    obtain ⟨k, -, rfl⟩ := List.mem_map.mp (List.mem_mergeSort.mp ha)
    obtain ⟨l, -, rfl⟩ := List.mem_map.mp hb
    obtain rfl : k = l := Nat.le_antisymm hab hba
    rfl
  have hsorted : ((indices.map fun k ↦ (block m xs k, k)).mergeSort (·.2 ≤ ·.2)).Pairwise
      fun a b ↦ a.2 ≤ b.2 := by
    apply (List.pairwise_mergeSort _ _ _).imp of_decide_eq_true
    · intro a b c hab hbc
      exact decide_eq_true ((of_decide_eq_true hab).trans (of_decide_eq_true hbc))
    · intro a b
      simpa using Nat.le_total a.2 b.2
  have hrange : ((List.range (cpSize * 2)).map fun k ↦ (block m xs k, k)).Pairwise
      fun a b ↦ a.2 ≤ b.2 :=
    List.pairwise_map.mpr (List.pairwise_lt_range.imp Nat.le_of_lt)
  have hsort := List.Perm.eq_of_pairwise hanti hsorted hrange
    ((List.mergeSort_perm _ _).trans ((chunkIndices_perm cpSize).map _))
  rw [allgatherCpShardedTensor, hchunks, hzip, hsort, List.flatMap_map]
  exact flatMap_block (Nat.mul_div_cancel' hsplit).symm

end Zigzag

section Packed

variable {cpSize : ℕ}

theorem assignSlice_of_length {tensor values : List α} {start stop : ℕ} (hle : start ≤ stop)
    (hstop : stop ≤ tensor.length) (hlen : values.length = stop - start) :
    assignSlice tensor start stop values =
      some (tensor.take start ++ values ++ tensor.drop stop) := by
  unfold assignSlice
  rw [length_slice hstop, if_pos hlen, Nat.add_sub_cancel' hle]

theorem bounds_offsets {lens : List ℕ} {i : ℕ} (h : i < lens.length) :
    bounds (offsets lens) i = (offset lens i, offset lens (i + 1)) := by
  rw [bounds, getD_offsets h.le, getD_offsets h]

/-- What a loop over the sequences writes, each at its own place. -/
theorem foldlM_assignSlice {parts : List (List α)} {write : List α → ℕ → Option (List α)}
    {tensor : List α} (hlen : tensor.length = parts.flatten.length)
    (hwrite : ∀ (i : ℕ) (part tensor : List α), parts[i]? = some part →
      write tensor i = assignSlice tensor (offset (parts.map List.length) i)
        (offset (parts.map List.length) (i + 1)) part) :
    (List.range parts.length).foldlM write tensor = some parts.flatten := by
  apply foldlM_parts _ hlen
  intro i part tensor hpart htensor
  have hsucc : offset (parts.map List.length) (i + 1) =
      offset (parts.map List.length) i + part.length := by
    apply offset_succ
    rw [List.getElem?_map, hpart]
    rfl
  have htotal := offset_le_sum (parts.map List.length) (i + 1)
  rw [hwrite i part tensor hpart, assignSlice_of_length (offset_le_succ _ _)]
  · rw [htensor, List.length_flatten]
    exact htotal
  · omega

theorem map_length_getTokens {parts : List (List α)} {f : List α → List β}
    (hf : ∀ part, (f part).length = part.length)
    (hsplit : ∀ part ∈ parts, Splits cpSize part.length) {cpRank : ℕ} (hrank : cpRank < cpSize) :
    (parts.map fun part ↦ getTokensOnThisCpRank cpRank cpSize (f part)).map List.length =
      (parts.map List.length).map (· / cpSize) := by
  rw [List.map_map, List.map_map]
  apply List.map_congr_left
  intro part hpart
  have hlen := hf part
  rw [Function.comp_apply, Function.comp_apply,
    length_getTokensOnThisCpRank (hlen ▸ hsplit part hpart) hrank, hlen]

theorem offset_getTokens {parts : List (List α)} {f : List α → List β}
    (hf : ∀ part, (f part).length = part.length) (hcp : 0 < cpSize)
    (hsplit : ∀ part ∈ parts, Splits cpSize part.length) {cpRank : ℕ} (hrank : cpRank < cpSize)
    (i : ℕ) :
    offset ((parts.map fun part ↦ getTokensOnThisCpRank cpRank cpSize (f part)).map List.length) i =
      offset (parts.map List.length) i / cpSize := by
  rw [map_length_getTokens hf hsplit hrank]
  apply offset_map_div
  intro n hn
  obtain ⟨part, hpart, rfl⟩ := List.mem_map.mp hn
  exact (hsplit part hpart).dvd hcp

theorem length_flatMap_getTokens {parts : List (List α)} {f : List α → List β}
    (hf : ∀ part, (f part).length = part.length) (hcp : 0 < cpSize)
    (hsplit : ∀ part ∈ parts, Splits cpSize part.length) {cpRank : ℕ} (hrank : cpRank < cpSize) :
    (parts.map fun part ↦ getTokensOnThisCpRank cpRank cpSize (f part)).flatten.length =
      parts.flatten.length / cpSize := by
  have htotal := offset_getTokens hf hcp hsplit hrank parts.length
  rw [offset, List.take_of_length_le (by rw [List.length_map, List.length_map]), offset,
    List.take_of_length_le (by rw [List.length_map])] at htotal
  rw [List.length_flatten, htotal, List.length_flatten]

variable {padToken : τ} {parts : List (List τ)}

/-- A rank's targets are its parts of the sequences, each rolled by itself. -/
theorem rolledTargets_flatten (hcp : 0 < cpSize)
    (hsplit : ∀ part ∈ parts, Splits cpSize part.length) {cpRank : ℕ} (hrank : cpRank < cpSize) :
    rolledTargets padToken cpSize (offsets (parts.map List.length)) parts.flatten cpRank =
      some (parts.map fun part ↦ getTokensOnThisCpRank cpRank cpSize (part.rotate 1)).flatten := by
  have hf : ∀ part : List τ, (part.rotate 1).length = part.length :=
    fun part ↦ List.length_rotate part 1
  have hoffset := offset_getTokens hf hcp hsplit hrank
  have hcount : (offsets (parts.map List.length)).length - 1 = (parts.map fun part ↦
      getTokensOnThisCpRank cpRank cpSize (part.rotate 1)).length := by
    rw [length_offsets, List.length_map, List.length_map, Nat.add_sub_cancel]
  rw [rolledTargets, hcount]
  apply foldlM_assignSlice
  · rw [List.length_replicate, length_flatMap_getTokens hf hcp hsplit hrank]
  · intro i rolled tensor hrolled
    rw [List.getElem?_map] at hrolled
    obtain ⟨part, hpart, rfl⟩ := Option.map_eq_some_iff.mp hrolled
    have hi : i < (parts.map List.length).length := by
      rw [List.length_map]
      exact (List.getElem?_eq_some_iff.mp hpart).1
    rw [hoffset, hoffset, bounds_offsets hi]
    dsimp only
    rw [slice_flatten hpart]

/-- The ranks' parts of the packed log probabilities, put together. -/
theorem gatheredProbs_flatten (zero : β) {parts : List (List β)} (hcp : 1 < cpSize)
    (hsplit : ∀ part ∈ parts, Splits cpSize part.length) :
    gatheredProbs zero cpSize (offsets (parts.map List.length))
      (fun cpRank ↦ (parts.map (getTokensOnThisCpRank cpRank cpSize)).flatten) =
      some parts.flatten := by
  have hf : ∀ part : List β, (id part).length = part.length := fun part ↦ rfl
  have hpos : 0 < cpSize := by omega
  have hcount : (offsets (parts.map List.length)).length - 1 = parts.length := by
    rw [length_offsets, List.length_map, Nat.add_sub_cancel]
  rw [gatheredProbs, hcount]
  apply foldlM_assignSlice
  · have hlen := length_flatMap_getTokens hf hpos hsplit hpos
    have hdvd : cpSize ∣ parts.flatten.length := by
      rw [List.length_flatten]
      apply List.dvd_sum
      intro n hn
      obtain ⟨part, hpart, rfl⟩ := List.mem_map.mp hn
      exact (hsplit part hpart).dvd hpos
    rw [List.length_replicate]
    exact (congrArg (· * cpSize) hlen).trans (Nat.div_mul_cancel hdvd)
  · intro i part tensor hpart
    have hi : i < (parts.map List.length).length := by
      rw [List.length_map]
      exact (List.getElem?_eq_some_iff.mp hpart).1
    have hmem := List.mem_of_getElem? hpart
    have hgather := allgather_getTokens hcp (hsplit part hmem hcp)
    rw [bounds_offsets hi]
    dsimp only
    congr 1
    apply Eq.trans _ hgather
    rw [allgatherCpShardedTensor, allgatherCpShardedTensor]
    have hslices : ∀ cpRank ∈ List.range cpSize,
        slice (parts.map (getTokensOnThisCpRank cpRank cpSize)).flatten
          (offset (parts.map List.length) i / cpSize)
          (offset (parts.map List.length) (i + 1) / cpSize) =
        getTokensOnThisCpRank cpRank cpSize part := by
      intro cpRank hrank
      have hoffset := offset_getTokens hf hpos hsplit (List.mem_range.mp hrank)
      rw [← hoffset, ← hoffset]
      apply slice_flatten
      rw [List.getElem?_map, hpart]
      rfl
    rw [List.flatMap_congr fun cpRank hrank ↦ congrArg chunkTwo (hslices cpRank hrank)]

theorem gatheredProbs_congr {zero : β} {cu : List ℕ} {probs probs' : ℕ → List β}
    (hcp : 0 < cpSize) (h : ∀ cpRank < cpSize, probs cpRank = probs' cpRank) :
    gatheredProbs zero cpSize cu probs = gatheredProbs zero cpSize cu probs' := by
  rw [gatheredProbs, gatheredProbs, h 0 hcp]
  congr 1
  funext final i
  dsimp only
  congr 1
  rw [allgatherCpShardedTensor, allgatherCpShardedTensor]
  rw [List.flatMap_congr fun cpRank hrank ↦
    congrArg (fun probs ↦ chunkTwo (slice probs _ _)) (h cpRank (List.mem_range.mp hrank))]

end Packed

section Logprobs

variable {logprob : ρ → τ → β} {padToken : τ} {zero : β} {cpSize : ℕ}

/-- The log probabilities of a sequence, each position with the token that follows it; the last
position has the first token. -/
def nextLogprobs (logprob : ρ → τ → β) (rows : List ρ) (tokens : List τ) : List β :=
  List.zipWith logprob rows (tokens.rotate 1)

theorem length_nextLogprobs {rows : List ρ} {tokens : List τ} (h : rows.length = tokens.length) :
    (nextLogprobs logprob rows tokens).length = tokens.length := by
  rw [nextLogprobs, List.length_zipWith, List.length_rotate, h, Nat.min_self]

theorem getElem?_nextLogprobs {rows : List ρ} {tokens : List τ} {t : ℕ}
    (h : t + 1 < tokens.length) :
    (nextLogprobs logprob rows tokens)[t]? =
      rows[t]?.bind fun row ↦ tokens[t + 1]?.map (logprob row) := by
  rw [nextLogprobs, List.getElem?_zipWith, List.getElem?_rotate (by omega), Nat.mod_eq_of_lt h]
  cases rows[t]? with
  | none => rfl
  | some row =>
    cases tokens[t + 1]? with
    | none => rfl
    | some token => rfl

theorem map_length_zipWith {f : List α → List β → List γ} {as : List (List α)}
    {bs : List (List β)} (h : List.Forall₂ (fun a b ↦ a.length = b.length) as bs)
    (hf : ∀ {a b}, a.length = b.length → (f a b).length = b.length) :
    (List.zipWith f as bs).map List.length = bs.map List.length := by
  induction h with
  | nil => rfl
  | cons hab _ ih => rw [List.zipWith_cons_cons, List.map_cons, List.map_cons, hf hab, ih]

theorem zipWith_getTokens {rows : List ρ} {tokens : List τ} (h : rows.length = tokens.length)
    (hsplit : Splits cpSize tokens.length) {cpRank : ℕ} (hrank : cpRank < cpSize) :
    List.zipWith logprob (getTokensOnThisCpRank cpRank cpSize rows)
      (getTokensOnThisCpRank cpRank cpSize (tokens.rotate 1)) =
      getTokensOnThisCpRank cpRank cpSize (nextLogprobs logprob rows tokens) := by
  rw [nextLogprobs, getTokensOnThisCpRank_zipWith logprob _ (h ▸ hsplit) hrank]
  rw [List.length_rotate, h]

variable (logprob) in
theorem packedProbs_flatten {rows : List (List ρ)} {parts : List (List τ)}
    (hrows : List.Forall₂ (fun row part ↦ row.length = part.length) rows parts)
    (hsplit : ∀ part ∈ parts, Splits cpSize part.length) {cpRank : ℕ} (hrank : cpRank < cpSize) :
    List.zipWith logprob (rows.map (getTokensOnThisCpRank cpRank cpSize)).flatten
      (parts.map fun part ↦ getTokensOnThisCpRank cpRank cpSize (part.rotate 1)).flatten =
      ((List.zipWith (nextLogprobs logprob) rows parts).map
        (getTokensOnThisCpRank cpRank cpSize)).flatten := by
  induction hrows with
  | nil => rfl
  | @cons row part rows parts hlen _ ih =>
    have hpart : Splits cpSize part.length := hsplit part (List.mem_cons_self ..)
    have hrest := ih fun part hpart ↦ hsplit part (List.mem_cons_of_mem _ hpart)
    simp only [List.map_cons, List.flatten_cons, List.zipWith_cons_cons]
    rw [List.zipWith_append, hrest, zipWith_getTokens hlen hpart hrank]
    rw [length_getTokensOnThisCpRank (hlen ▸ hpart) hrank, length_getTokensOnThisCpRank _ hrank,
      List.length_rotate, hlen]
    rw [List.length_rotate]
    exact hpart

theorem fromParallelLogitsToLogprobsPackedSequences_eq {rows : List (List ρ)}
    {parts : List (List τ)} (hcp : 0 < cpSize)
    (hrows : List.Forall₂ (fun row part ↦ row.length = part.length) rows parts)
    (hsplit : ∀ part ∈ parts, Splits cpSize part.length) (unpackedSeqlen : ℕ) :
    fromParallelLogitsToLogprobsPackedSequences logprob padToken zero cpSize
      (offsets (parts.map List.length))
      (fun cpRank ↦ (rows.map (getTokensOnThisCpRank cpRank cpSize)).flatten)
      (fun _ ↦ parts.flatten) unpackedSeqlen false =
      some ((List.range parts.length).map (unpackedRow zero (offsets (parts.map List.length))
        unpackedSeqlen (List.zipWith (nextLogprobs logprob) rows parts).flatten)) := by
  let targets := (List.range cpSize).map fun cpRank ↦
    (parts.map fun part ↦ getTokensOnThisCpRank cpRank cpSize (part.rotate 1)).flatten
  let logprobs := List.zipWith (nextLogprobs logprob) rows parts
  have hrolled : ((List.range cpSize).mapM fun cpRank ↦ rolledTargets padToken cpSize
      (offsets (parts.map List.length)) parts.flatten cpRank) = some targets := by
    apply mapM_eq_some
    apply List.forall₂_map_right_iff.mpr
    apply List.forall₂_same.mpr
    intro cpRank hrank
    exact rolledTargets_flatten hcp hsplit (List.mem_range.mp hrank)
  have hprobs : ∀ cpRank < cpSize,
      List.zipWith logprob (rows.map (getTokensOnThisCpRank cpRank cpSize)).flatten
        (targets.getD cpRank []) =
      (logprobs.map (getTokensOnThisCpRank cpRank cpSize)).flatten := by
    intro cpRank hrank
    rw [← packedProbs_flatten logprob hrows hsplit hrank, List.getD_eq_getElem?_getD, List.getElem?_map,
      List.getElem?_range hrank]
    rfl
  have hlens : logprobs.map List.length = parts.map List.length :=
    map_length_zipWith hrows fun hlen ↦ length_nextLogprobs hlen
  have hsplit' : ∀ part ∈ logprobs, Splits cpSize part.length := by
    intro part hpart
    have hmem := List.mem_map_of_mem (f := List.length) hpart
    rw [hlens] at hmem
    obtain ⟨tokens, htokens, hlen⟩ := List.mem_map.mp hmem
    exact hlen ▸ hsplit tokens htokens
  have hcount : (offsets (parts.map List.length)).length - 1 = parts.length := by
    rw [length_offsets, List.length_map, Nat.add_sub_cancel]
  rw [fromParallelLogitsToLogprobsPackedSequences]
  simp only [Bool.false_eq_true, if_false]
  rw [hrolled, Option.bind_eq_bind, Option.bind_some]
  rcases Nat.lt_or_ge 1 cpSize with hlt | hge
  · have hgather := gatheredProbs_flatten zero hlt hsplit'
    rw [hlens] at hgather
    rw [if_pos hlt, gatheredProbs_congr hcp hprobs, hgather, hcount]
    rfl
  · obtain rfl : cpSize = 1 := by omega
    have hid : getTokensOnThisCpRank (α := β) 0 1 = id := rfl
    rw [if_neg (by omega), hprobs 0 Nat.one_pos, hid, List.map_id, hcount]
    rfl

end Logprobs

section Rows

variable {logprob : ρ → τ → β} {padToken : τ} {zero : β} {cpSize : ℕ}

/-- A row of the unpacked result is the sequence's log probabilities, as far as it goes. -/
theorem getElem?_unpackedRow {parts : List (List β)} {i : ℕ} {part : List β}
    (hpart : parts[i]? = some part) {unpackedSeqlen t : ℕ} (hlast : t + 1 < part.length)
    (hwidth : t + 1 < unpackedSeqlen) :
    (unpackedRow zero (offsets (parts.map List.length)) unpackedSeqlen parts.flatten i)[t]? =
      part[t]? := by
  have hi : i < (parts.map List.length).length := by
    rw [List.length_map]
    exact (List.getElem?_eq_some_iff.mp hpart).1
  have hsucc : offset (parts.map List.length) (i + 1) =
      offset (parts.map List.length) i + part.length := by
    apply offset_succ
    rw [List.getElem?_map, hpart]
    rfl
  have htotal := offset_le_sum (parts.map List.length) (i + 1)
  rw [← List.length_flatten] at htotal
  have hlen : (slice parts.flatten (offset (parts.map List.length) i)
      (offset (parts.map List.length) (i + 1) - 1)).length = part.length - 1 := by
    rw [length_slice (by omega)]
    omega
  rw [unpackedRow, bounds_offsets hi]
  dsimp only
  rw [if_pos (by omega), hlen, List.getElem?_append_left, List.getElem?_take_of_lt (by omega),
    getElem?_slice (by omega), getElem?_flatten hpart (by omega)]
  rw [List.length_take, hlen]
  omega

theorem getElem?_rowLogprobs {rows : List ρ} {tokens : List τ} {padLen t : ℕ} (hcp : 0 < cpSize)
    (hrows : rows.length = tokens.length + padLen)
    (hsplit : Splits cpSize (tokens.length + padLen)) (ht : t + 1 < tokens.length) :
    (rowLogprobs logprob padToken cpSize padLen
      (fun cpRank ↦ getTokensOnThisCpRank cpRank cpSize rows) tokens)[t]? =
      rows[t]?.bind fun row ↦ tokens[t + 1]?.map (logprob row) := by
  let targets := tokens.rotate 1 ++ List.replicate padLen padToken
  have htargets : targets.length = tokens.length + padLen := by
    rw [List.length_append, List.length_rotate, List.length_replicate]
  have hlen : (List.zipWith logprob rows targets).length = tokens.length + padLen := by
    rw [List.length_zipWith, hrows, htargets, Nat.min_self]
  have hlocal : ∀ cpRank < cpSize, List.zipWith logprob (getTokensOnThisCpRank cpRank cpSize rows)
      (getTokensOnThisCpRank cpRank cpSize targets) =
      getTokensOnThisCpRank cpRank cpSize (List.zipWith logprob rows targets) := by
    intro cpRank hrank
    rw [getTokensOnThisCpRank_zipWith logprob _ (hrows ▸ hsplit) hrank]
    rw [hrows, htargets]
  have hgathered : (if cpSize > 1 then allgatherCpShardedTensor cpSize fun cpRank ↦
      List.zipWith logprob (getTokensOnThisCpRank cpRank cpSize rows)
        (getTokensOnThisCpRank cpRank cpSize targets)
      else List.zipWith logprob (getTokensOnThisCpRank 0 cpSize rows)
        (getTokensOnThisCpRank 0 cpSize targets)) = List.zipWith logprob rows targets := by
    rcases Nat.lt_or_ge 1 cpSize with hlt | hge
    · have hdvd : cpSize * 2 ∣ (List.zipWith logprob rows targets).length := by
        rw [hlen]
        exact hsplit hlt
      rw [if_pos hlt]
      exact (allgather_congr hlocal).trans (allgather_getTokens hlt hdvd)
    · obtain rfl : cpSize = 1 := by omega
      rw [if_neg (by omega)]
      rfl
  have hcut : (rowLogprobs logprob padToken cpSize padLen
      (fun cpRank ↦ getTokensOnThisCpRank cpRank cpSize rows) tokens)[t]? =
      (List.zipWith logprob rows targets)[t]? := by
    rw [rowLogprobs]
    dsimp only
    rw [hgathered, List.getElem?_dropLast]
    split_ifs with hpad hlast hlast
    · exact List.getElem?_take_of_lt (by omega)
    · rw [List.length_take, hlen] at hlast
      omega
    · rfl
    · omega
  rw [hcut, List.getElem?_zipWith, List.getElem?_append_left (by rw [List.length_rotate]; omega),
    List.getElem?_rotate (by omega), Nat.mod_eq_of_lt ht]
  cases rows[t]? with
  | none => rfl
  | some row =>
    cases tokens[t + 1]? with
    | none => rfl
    | some token => rfl

def batchLogits (cpSize : ℕ) (rows : List (List ρ)) (cpRank : ℕ) : List (List ρ) :=
  rows.map (getTokensOnThisCpRank cpRank cpSize)

theorem getElem?_fromParallelLogitsToLogprobs {rows : List (List ρ)} {target : List (List τ)}
    {S width i t : ℕ} (hcp : 0 < cpSize) (hS : S ≤ width) (hsplit : Splits cpSize width)
    (hrows : ∀ row ∈ rows, row.length = width) (htarget : ∀ tokens ∈ target, tokens.length = S)
    {row : List ρ} {tokens : List τ} (hrow : rows[i]? = some row)
    (htokens : target[i]? = some tokens) (ht : t + 1 < S) :
    ((fromParallelLogitsToLogprobs logprob padToken cpSize (batchLogits cpSize rows) target)[i]?.bind
      (·[t]?)) = row[t]?.bind fun logits ↦ tokens[t + 1]?.map (logprob logits) := by
  have hrowLen : row.length = width := hrows row (List.mem_of_getElem? hrow)
  have htokensLen : tokens.length = S := htarget tokens (List.mem_of_getElem? htokens)
  have hwidth : ((batchLogits cpSize rows 0).headD []).length * cpSize = width := by
    cases rows with
    | nil => cases hrow
    | cons first rows =>
      have hfirst : first.length = width := hrows first (List.mem_cons_self ..)
      have hlen : (getTokensOnThisCpRank 0 cpSize first).length = width / cpSize := by
        rw [length_getTokensOnThisCpRank (hfirst.symm ▸ hsplit) hcp, hfirst]
      rw [batchLogits, List.map_cons, List.headD_cons, hlen]
      exact Nat.div_mul_cancel (hsplit.dvd hcp)
  have hhead : (target.headD []).length = S := by
    cases target with
    | nil => cases htokens
    | cons first target => exact htarget first (List.mem_cons_self ..)
  have hlogits : ∀ cpRank, (batchLogits cpSize rows cpRank).getD i [] =
      getTokensOnThisCpRank cpRank cpSize row := by
    intro cpRank
    rw [batchLogits, List.getD_eq_getElem?_getD, List.getElem?_map, hrow]
    rfl
  rw [fromParallelLogitsToLogprobs, List.getElem?_map, List.getElem?_zipIdx, htokens, hwidth, hhead]
  simp only [Option.map_some, Option.bind_some, Nat.zero_add, hlogits]
  have hpad : tokens.length + (width - S) = width := by omega
  exact getElem?_rowLogprobs hcp (hrowLen.trans hpad.symm) (hpad.symm ▸ hsplit) (by omega)

end Rows

section Positions

variable {cpSize : ℕ}

/-- What a rank holds of a packed tensor: its part of each sequence. -/
def shareOut (cuSeqlensPadded : List ℕ) (cpSize cpRank : ℕ) (packed : List α) : List α :=
  ((List.range (cuSeqlensPadded.length - 1)).map fun i ↦
    getTokensOnThisCpRank cpRank cpSize
      (slice packed (bounds cuSeqlensPadded i).1 (bounds cuSeqlensPadded i).2)).flatten

theorem shareOut_flatten (cpSize cpRank : ℕ) (parts : List (List α)) :
    shareOut (offsets (parts.map List.length)) cpSize cpRank parts.flatten =
      (parts.map (getTokensOnThisCpRank cpRank cpSize)).flatten := by
  rw [shareOut, length_offsets, List.length_map, Nat.add_sub_cancel]
  congr 1
  apply List.ext_getElem?
  intro i
  rw [List.getElem?_map, List.getElem?_map]
  rcases Nat.lt_or_ge i parts.length with hi | hi
  · have hpart : parts[i]? = some parts[i] := List.getElem?_eq_getElem hi
    rw [List.getElem?_range hi, hpart, Option.map_some, Option.map_some,
      bounds_offsets (by rwa [List.length_map]), slice_flatten hpart]
  · rw [List.getElem?_eq_none (by rwa [List.length_range]), List.getElem?_eq_none hi]
    rfl

def positionsOf (lens : List ℕ) : List (List ℕ) :=
  (List.range lens.length).map fun i ↦ List.range' (offset lens i) (lens.getD i 0)

theorem flatten_positionsOf (lens : List ℕ) : (positionsOf lens).flatten = List.range lens.sum := by
  induction lens using List.reverseRecOn with
  | nil => rfl
  | append_singleton lens n ih =>
    have hinit : ∀ i ∈ List.range lens.length,
        List.range' (offset (lens ++ [n]) i) ((lens ++ [n]).getD i 0) =
          List.range' (offset lens i) (lens.getD i 0) := by
      intro i hi
      have hlt := List.mem_range.mp hi
      rw [offset_append hlt.le, List.getD_append _ _ _ _ hlt]
    have hlast : offset (lens ++ [n]) lens.length = lens.sum := by
      rw [offset_append le_rfl, offset_length]
    rw [positionsOf, List.length_append, List.length_singleton, List.range_succ, List.map_append,
      List.map_congr_left hinit, ← positionsOf, List.flatten_append, ih, List.map_singleton,
      List.flatten_singleton, hlast, List.sum_append, List.sum_singleton, List.range_add,
      List.range'_eq_map_range]
    simp

theorem length_positionsOf (parts : List (List α)) :
    List.Forall₂ (fun positions part ↦ positions.length = part.length)
      (positionsOf (parts.map List.length)) parts := by
  apply List.forall₂_iff_get.mpr
  constructor
  · rw [positionsOf, List.length_map, List.length_range, List.length_map]
  · intro i hi hi'
    simp [positionsOf, hi']

/-- A position has the target that follows it in its own sequence, the last position the first. -/
theorem rolledTargets_within (padToken : τ) {parts : List (List τ)} (hcp : 0 < cpSize)
    (hsplit : ∀ part ∈ parts, Splits cpSize part.length) {cpRank : ℕ} (hrank : cpRank < cpSize) :
    ∃ rolled, rolledTargets padToken cpSize (offsets (parts.map List.length)) parts.flatten cpRank =
      some rolled ∧
      rolled.length = parts.flatten.length / cpSize ∧
      ∀ x ∈ (shareOut (offsets (parts.map List.length)) cpSize cpRank
        (List.range parts.flatten.length)).zip rolled,
        ∃ (i : ℕ) (part : List τ) (t : ℕ), parts[i]? = some part ∧ t < part.length ∧
          x.1 = offset (parts.map List.length) i + t ∧
          part[(t + 1) % part.length]? = some x.2 := by
  have hpositions := length_positionsOf parts
  have hlens : (positionsOf (parts.map List.length)).map List.length = parts.map List.length := by
    have heq : List.Forall₂ (· = ·) ((positionsOf (parts.map List.length)).map List.length)
        (parts.map List.length) := by
      rw [List.forall₂_map_left_iff, List.forall₂_map_right_iff]
      exact hpositions
    rwa [List.forall₂_eq_eq_eq] at heq
  refine ⟨_, rolledTargets_flatten hcp hsplit hrank, ?_, ?_⟩
  · exact length_flatMap_getTokens (fun part ↦ List.length_rotate part 1) hcp hsplit hrank
  · intro x hx
    have hshare := shareOut_flatten cpSize cpRank (positionsOf (parts.map List.length))
    rw [hlens, flatten_positionsOf, ← List.length_flatten] at hshare
    rw [hshare, List.zip, packedProbs_flatten Prod.mk hpositions hsplit hrank] at hx
    obtain ⟨held, hheld, hx⟩ := List.mem_flatten.mp hx
    obtain ⟨pairs, hpairs, rfl⟩ := List.mem_map.mp hheld
    have hx' := mem_of_mem_getTokens hx
    obtain ⟨i, hi⟩ := List.mem_iff_getElem?.mp hpairs
    obtain ⟨place, part, hplace, hpart, rfl⟩ := List.getElem?_zipWith_eq_some.mp hi
    obtain ⟨t, ht⟩ := List.mem_iff_getElem?.mp hx'
    obtain ⟨p, token, hp, htoken, rfl⟩ := List.getElem?_zipWith_eq_some.mp ht
    have hi' : i < (parts.map List.length).length := by
      rw [List.length_map]
      exact (List.getElem?_eq_some_iff.mp hpart).1
    have hlen : (parts.map List.length).getD i 0 = part.length := by
      rw [List.getD_eq_getElem?_getD, List.getElem?_map, hpart]
      rfl
    rw [positionsOf, List.getElem?_map, List.getElem?_range hi', Option.map_some, hlen] at hplace
    obtain rfl := Option.some.inj hplace
    obtain ⟨hlt, hget⟩ := List.getElem?_eq_some_iff.mp hp
    rw [List.length_range'] at hlt
    rw [List.getElem_range', Nat.one_mul] at hget
    rw [List.getElem?_rotate hlt] at htoken
    exact ⟨i, part, t, hpart, hlt, hget.symm, htoken⟩

end Positions

end NemoRL.Distributed.ContextParallel
