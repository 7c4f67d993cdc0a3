import Mathlib
import NemoRL.Data.Packing.Legal
import NemoRL.Distributed.BatchedDataDict
import NemoRL.Foundations.Blocks
import NemoRL.Foundations.Patches

namespace NemoRL.Distributed.BatchedDataDict

open Foundations.Positions Foundations.Blocks Foundations.Patches Data.Packing

section Blocks

variable {α β : Type*}

theorem flatMap_comm_perm (l : List α) (l' : List β) {γ : Type*} (f : α → β → List γ) :
    (l.flatMap fun a ↦ l'.flatMap (f a)).Perm (l'.flatMap fun b ↦ l.flatMap fun a ↦ f a b) := by
  induction l with
  | nil => simp
  | cons a l ih =>
    have hsplit : (l'.flatMap fun b ↦ (a :: l).flatMap fun a ↦ f a b).Perm
        (l'.flatMap (f a) ++ l'.flatMap fun b ↦ l.flatMap fun a ↦ f a b) := by
      simp only [List.flatMap_cons]
      exact (List.flatMap_append_perm l' (f a) fun b ↦ l.flatMap fun a ↦ f a b).symm
    rw [List.flatMap_cons]
    exact (ih.append_left _).trans hsplit.symm

end Blocks

section Rows

variable {order : List ℕ} {numChunks batchSize shards shardSize : ℕ}

theorem shardRows_perm (hbatch : batchSize = shards * shardSize)
    (hlen : order.length = numChunks * batchSize) :
    ((List.range shards).flatMap (shardRows order numChunks batchSize shardSize)).Perm order := by
  refine (flatMap_comm_perm _ _ _).trans (.of_eq ?_)
  have hchunk : ∀ chunkIdx, ((List.range shards).flatMap fun shardIdx ↦
      (order.drop (chunkIdx * batchSize + shardIdx * shardSize)).take shardSize) =
        (order.drop (chunkIdx * batchSize)).take batchSize := by
    intro chunkIdx
    rw [hbatch, ← flatMap_take_drop]
    simp only [List.drop_drop]
  simp only [hchunk]
  rw [flatMap_take_drop, ← hlen, List.take_length]

theorem batchSortedIndices_perm (inputLengths : List ℕ) (numChunks batchSize : ℕ)
    (hshards : 0 < shards) :
    (batchSortedIndices inputLengths numChunks batchSize shards).Perm
      (List.range (numChunks * batchSize)) := by
  rw [← flatMap_range_add]
  refine List.Perm.flatMap_left _ fun chunkIdx _ ↦ ?_
  refine (flatMap_stripe_perm _ fun _ ↦ hshards).trans ?_
  exact (List.perm_insertionSort _ _).map _

end Rows

section Packer

variable {p : SequencePacker} {sequenceLengths : List ℤ}

theorem le_of_firstFit {capacity : ℤ} {xs : List (ℤ × ℕ)} {s t : FirstFit}
    (h : xs.foldlM (FirstFit.place capacity) s = .ok t) : ∀ x ∈ xs, x.1 ≤ capacity := by
  induction xs generalizing s with
  | nil => simp
  | cons x xs ih =>
    rw [List.foldlM_cons] at h
    cases hstep : FirstFit.place capacity s x with
    | error e =>
      rw [hstep] at h
      cases h
    | ok u =>
      rw [hstep] at h
      refine List.forall_mem_cons.mpr ⟨?_, ih h⟩
      by_contra hlt
      rw [FirstFit.place, if_pos (by omega)] at hstep
      cases hstep

theorem le_of_validate (h : p.validateSequenceLengths sequenceLengths = .ok ()) :
    ∀ l ∈ sequenceLengths, l ≤ p.binCapacity := by
  unfold SequencePacker.validateSequenceLengths at h
  cases hfind : sequenceLengths.find? (p.binCapacity < ·) with
  | some l =>
    rw [hfind] at h
    cases h
  | none =>
    intro l hl
    have hnot := List.find?_eq_none.mp hfind l hl
    simpa using hnot

theorem filled_of_firstFit {xs : List (ℤ × ℕ)} {bins : List (List ℕ)}
    (hp : xs.Perm sequenceLengths.zipIdx) (h : firstFit p.binCapacity xs = .ok bins) :
    (∀ l ∈ sequenceLengths, l ≤ p.binCapacity) ∧
      Filled sequenceLengths p.binCapacity (List.range sequenceLengths.length) bins := by
  have hle : ∀ l ∈ sequenceLengths, l ≤ p.binCapacity := by
    intro l hl
    unfold firstFit at h
    cases hfold : xs.foldlM (FirstFit.place p.binCapacity) ⟨[], []⟩ with
    | error e =>
      rw [hfold] at h
      cases h
    | ok s =>
      obtain ⟨i, hi⟩ := List.mem_iff_getElem?.mp hl
      have hmem : (l, i) ∈ xs := hp.mem_iff.mpr (List.mem_zipIdx_iff_getElem?.mpr hi)
      exact le_of_firstFit hfold _ hmem
  obtain ⟨bins', hbins', hfilled⟩ := filled_firstFit hp hle
  obtain rfl : bins' = bins := Except.ok.inj (hbins'.symm.trans h)
  exact ⟨hle, hfilled⟩

/-- What a packer returns fills its bins, also where it is not asked to. -/
theorem filled_of_packImplementation {algorithm : PackingAlgorithm} {bins : List (List ℕ)}
    (h : p.packImplementation algorithm sequenceLengths = .ok bins) :
    (∀ l ∈ sequenceLengths, l ≤ p.binCapacity) ∧
      Filled sequenceLengths p.binCapacity (List.range sequenceLengths.length) bins := by
  cases algorithm with
  | concatenative limit =>
    simp only [SequencePacker.packImplementation] at h
    cases hvalid : p.validateSequenceLengths sequenceLengths with
    | error e =>
      rw [hvalid] at h
      cases h
    | ok u =>
      rw [hvalid] at h
      obtain rfl := Except.ok.inj h
      have hle := le_of_validate hvalid
      exact ⟨hle, filled_concatenate limit hle⟩
  | firstFitDecreasing =>
    have hperm : (sortDecreasing sequenceLengths.zipIdx).Perm sequenceLengths.zipIdx :=
      List.perm_insertionSort _ _
    exact filled_of_firstFit hperm h
  | firstFitShuffle shuffle hshuffle => exact filled_of_firstFit (hshuffle _) h
  | modifiedFirstFitDecreasing quotient =>
    simp only [SequencePacker.packImplementation, SequencePacker.modifiedFirstFitDecreasing] at h
    split_ifs at h with hcap hpos
    cases hvalid : p.validateSequenceLengths sequenceLengths with
    | error e =>
      rw [hvalid] at h
      cases h
    | ok u =>
      rw [hvalid] at h
      obtain rfl := Except.ok.inj h
      have hle := le_of_validate hvalid
      exact ⟨hle, filled_modifiedFirstFit quotient (by omega) hle⟩

theorem legalPacking_of_pack {algorithm : PackingAlgorithm} {bins : List (List ℕ)}
    (hnonneg : ∀ l ∈ sequenceLengths, 0 ≤ l) (hne : sequenceLengths ≠ [])
    (h : p.pack algorithm sequenceLengths = .ok bins) : p.LegalPacking sequenceLengths bins := by
  unfold SequencePacker.pack at h
  cases himp : p.packImplementation algorithm sequenceLengths with
  | error e =>
    rw [himp] at h
    cases h
  | ok natural =>
    rw [himp] at h
    replace h : p.adjustBinCount natural = .ok bins := h
    obtain ⟨hle, hfilled⟩ := filled_of_packImplementation himp
    obtain ⟨l, hl⟩ := List.exists_mem_of_ne_nil _ hne
    have hcap : 0 ≤ p.binCapacity := (hnonneg l hl).trans (hle l hl)
    obtain ⟨-, hmin, hdvd⟩ := targetBinCount_spec p natural.length
    have hsize := SequencePacker.lengthAt_bounds fun l hl ↦ ⟨hnonneg l hl, hle l hl⟩
    rcases adjustBinCount_spec hcap hfilled hsize (p := p) with
      ⟨adjusted, hok, ⟨hpacks, hnonempty⟩, hlen⟩ | ⟨-, herr⟩
    · obtain rfl : adjusted = bins := Except.ok.inj (hok.symm.trans h)
      refine ⟨hpacks.perm, hnonempty, hpacks.fits, ?_, ?_⟩
      · rw [hlen]
        exact hmin
      · rw [hlen]
        exact hdvd
    · rw [herr] at h
      cases h

end Packer

section Packed

variable {args : SequencePackingArgs} {packer : SequencePacker} {inputLengths : List ℕ}
  {numChunks batchSize shards : ℕ} {assignments : List (List (List ℕ))}

theorem shardBins_perm (paddedSeqlens : List ℕ) (bins : List (List ℕ)) (hshards : 0 < shards) :
    ((List.range shards).flatMap (shardBinAssignments args paddedSeqlens bins shards)).Perm bins := by
  refine .trans (List.Perm.flatMap_left _ fun shardIdx _ ↦ ?_)
    (flatMap_stripe_perm bins fun _ ↦ hshards)
  unfold shardBinAssignments
  split_ifs
  · exact List.perm_insertionSort _ _
  · exact .refl _

theorem packedShard_rows {shardIdx : ℕ} {shard : SlicedDataDict}
    (h : packedShard args inputLengths batchSize shards assignments shardIdx = some shard) :
    shard.rows = assignments.zipIdx.flatMap fun x ↦
      (shardBinAssignments args (chunkPaddedSeqlens args inputLengths batchSize x.2) x.1 shards
        shardIdx).flatMap fun bin ↦ bin.map (· + x.2 * batchSize) := by
  obtain ⟨counts, -, h⟩ := Option.bind_eq_some_iff.mp h
  obtain rfl := Option.some.inj h
  simp only [binsOfShard, List.flatMap_map]

theorem length_chunkPaddedSeqlens (args : SequencePackingArgs) {chunkIdx : ℕ} (hchunk : chunkIdx < numChunks)
    (hlen : inputLengths.length = numChunks * batchSize) :
    (chunkPaddedSeqlens args inputLengths batchSize chunkIdx).length = batchSize := by
  have hle : (chunkIdx + 1) * batchSize ≤ numChunks * batchSize := Nat.mul_le_mul_right _ hchunk
  rw [Nat.succ_mul] at hle
  simp only [chunkPaddedSeqlens, List.length_map, List.length_take, List.length_drop]
  omega

/-- The bins of each chunk are a legal packing of it. -/
theorem assignments_legal (hbatch : 0 < batchSize)
    (hlen : inputLengths.length = numChunks * batchSize)
    (h : allChunkBinAssignments args packer inputLengths numChunks batchSize = some assignments) :
    assignments.length = numChunks ∧ ∀ chunkIdx bins, assignments[chunkIdx]? = some bins →
      packer.LegalPacking ((chunkPaddedSeqlens args inputLengths batchSize chunkIdx).map Int.ofNat)
        bins := by
  have hall := forall₂_of_mapM h
  have hcount := hall.length_eq
  rw [List.length_range] at hcount
  refine ⟨hcount.symm, fun chunkIdx bins hget ↦ ?_⟩
  obtain ⟨hlt, hbins⟩ := List.getElem?_eq_some_iff.mp hget
  have hpack := hall.get (by rw [List.length_range]; omega : chunkIdx < (List.range numChunks).length)
    hlt
  simp only [List.get_eq_getElem, List.getElem_range, hbins] at hpack
  cases hok : packer.pack (args.algorithm chunkIdx)
      ((chunkPaddedSeqlens args inputLengths batchSize chunkIdx).map Int.ofNat) with
  | error e =>
    rw [hok] at hpack
    cases hpack
  | ok found =>
    rw [hok] at hpack
    obtain rfl := Option.some.inj hpack
    refine legalPacking_of_pack (fun l hl ↦ ?_) (fun hnil ↦ ?_) hok
    · obtain ⟨k, -, rfl⟩ := List.mem_map.mp hl
      exact Int.natCast_nonneg k
    · have hchunk := length_chunkPaddedSeqlens args (by omega : chunkIdx < numChunks) hlen
      rw [List.map_eq_nil_iff.mp hnil] at hchunk
      exact hbatch.ne hchunk

theorem assignments_perm (hbatch : 0 < batchSize) (hlen : inputLengths.length = numChunks * batchSize)
    (h : allChunkBinAssignments args packer inputLengths numChunks batchSize = some assignments) :
    assignments.length = numChunks ∧
      ∀ x ∈ assignments.zipIdx, x.1.flatten.Perm (List.range batchSize) := by
  obtain ⟨hcount, hlegal⟩ := assignments_legal hbatch hlen h
  refine ⟨hcount, fun x hx ↦ ?_⟩
  have hget := List.mem_zipIdx_iff_getElem?.mp hx
  have hlt := (List.getElem?_eq_some_iff.mp hget).1
  have hperm := (hlegal x.2 x.1 hget).once
  rwa [List.length_map, length_chunkPaddedSeqlens args (by omega) hlen] at hperm

theorem packedShards_perm (hbatch : 0 < batchSize) (hshards : 0 < shards)
    (hlen : inputLengths.length = numChunks * batchSize)
    (h : allChunkBinAssignments args packer inputLengths numChunks batchSize = some assignments)
    {sharded : List SlicedDataDict} (hsharded : (List.range shards).mapM
      (packedShard args inputLengths batchSize shards assignments) = some sharded) :
    (sharded.flatMap SlicedDataDict.rows).Perm (List.range inputLengths.length) := by
  obtain ⟨hcount, hbins⟩ := assignments_perm hbatch hlen h
  have hrows : sharded.flatMap SlicedDataDict.rows =
      (List.range shards).flatMap fun shardIdx ↦ assignments.zipIdx.flatMap fun x ↦
        (shardBinAssignments args (chunkPaddedSeqlens args inputLengths batchSize x.2) x.1 shards
          shardIdx).flatMap fun bin ↦ bin.map (· + x.2 * batchSize) := by
    have hall := (forall₂_of_mapM hsharded).imp fun shardIdx shard hshard ↦ packedShard_rows hshard
    clear hsharded
    generalize List.range shards = l at hall ⊢
    induction hall with
    | nil => rfl
    | cons hshard _ ih => rw [List.flatMap_cons, List.flatMap_cons, hshard, ih]
  have hchunk : ∀ x ∈ assignments.zipIdx, ((List.range shards).flatMap fun shardIdx ↦
      (shardBinAssignments args (chunkPaddedSeqlens args inputLengths batchSize x.2) x.1 shards
        shardIdx).flatMap fun bin ↦ bin.map (· + x.2 * batchSize)).Perm
          ((List.range batchSize).map (· + x.2 * batchSize)) := by
    intro x hx
    rw [← List.flatMap_assoc, ← List.map_flatMap]
    have hjoin : ∀ l : List (List ℕ), (l.flatMap fun bin ↦ bin) = l.flatten := fun l ↦ by
      rw [List.flatMap_id']
    rw [hjoin]
    exact ((shardBins_perm _ x.1 hshards).flatten.trans (hbins x hx)).map _
  rw [hrows, hlen, ← flatMap_range_add]
  refine (flatMap_comm_perm _ _ _).trans ((List.Perm.flatMap_left _ hchunk).trans (.of_eq ?_))
  have hidx : assignments.zipIdx.map Prod.snd = List.range numChunks := by
    rw [List.zipIdx_map_snd, hcount, List.range_eq_range']
  rw [← hidx, List.flatMap_map]

end Packed

/-- However a batch is sharded, the shards take every row once. -/
theorem shardByBatchSize_perm {inputLengths : List ℕ} {inputSeqlen shards : ℕ}
    {batchSize : Option ℕ} {dynamicBatchingArgs : Option DynamicBatchingArgs}
    {sequencePackingArgs : Option SequencePackingArgs} {sharded : List SlicedDataDict}
    (h : shardByBatchSize inputLengths inputSeqlen shards batchSize dynamicBatchingArgs
      sequencePackingArgs = some sharded) :
    (sharded.flatMap SlicedDataDict.rows).Perm (List.range inputLengths.length) := by
  unfold shardByBatchSize at h
  simp only at h
  generalize batchSize.getD inputLengths.length = b at h
  by_cases hboth : dynamicBatchingArgs.isSome ∧ sequencePackingArgs.isSome
  · rw [if_pos hboth] at h
    cases h
  rw [if_neg hboth] at h
  by_cases hbad : b = 0 ∨ inputLengths.length % b ≠ 0 ∨ shards = 0 ∨ b % shards ≠ 0
  · rw [if_pos hbad] at h
    cases h
  rw [if_neg hbad] at h
  obtain ⟨hb, hmod, hs, hdiv⟩ : b ≠ 0 ∧ inputLengths.length % b = 0 ∧ shards ≠ 0 ∧
      b % shards = 0 := by
    push Not at hbad
    exact hbad
  have hlen : inputLengths.length = inputLengths.length / b * b :=
    (Nat.div_mul_cancel (Nat.dvd_of_mod_eq_zero hmod)).symm
  have hbatch : b = shards * (b / shards) :=
    (Nat.mul_div_cancel' (Nat.dvd_of_mod_eq_zero hdiv)).symm
  cases hdynamic : dynamicBatchingArgs with
  | some args =>
    rw [hdynamic] at h
    simp only at h
    split_ifs at h with hround
    obtain ⟨chunks, -, rfl⟩ := Option.map_eq_some_iff.mp h
    have hsorted := batchSortedIndices_perm inputLengths (inputLengths.length / b) b
      (Nat.pos_of_ne_zero hs)
    simp only [List.map_map, List.flatMap_map, Function.comp_def]
    refine (shardRows_perm hbatch ?_).trans ?_
    · rw [hsorted.length_eq, List.length_range]
    · rwa [← hlen] at hsorted
  | none =>
    rw [hdynamic] at h
    cases hpacking : sequencePackingArgs with
    | none =>
      rw [hpacking] at h
      simp only at h
      obtain rfl := Option.some.inj h
      simp only [List.flatMap_map]
      refine shardRows_perm hbatch ?_
      rw [List.length_range]
      exact hlen
    | some args =>
      rw [hpacking] at h
      simp only at h
      split_ifs at h with hargs
      split at h
      · cases h
      · obtain ⟨assignments, hassign, hsharded⟩ := Option.bind_eq_some_iff.mp h
        exact packedShards_perm (Nat.pos_of_ne_zero hb) (Nat.pos_of_ne_zero hs) hlen hassign hsharded

end NemoRL.Distributed.BatchedDataDict
