import Mathlib
import NemoRL.Distributed.PackedShards

namespace NemoRL.Distributed.BatchedDataDict

open Foundations.Positions Foundations.Blocks Foundations.Ragged Foundations.Tilings Data.Packing

section Push

variable {maxTokens l : ℕ} {done : List ℕ} {s : MicroBatches}

/-- A microbatch of a range of the rows within the budget, whose length is that
of its longest row. -/
def Within (maxTokens : ℕ) (done : List ℕ) (range : ℕ × ℕ) (length : ℕ) : Prop :=
  (range.2 - range.1) * length ≤ maxTokens ∧ length ∈ done ∧
    ∀ j k, range.1 ≤ j → j < range.2 → done[j]? = some k → k ≤ length

structure Planned (maxTokens : ℕ) (done : List ℕ) (s : MicroBatches) : Prop where
  stop : s.stop = done.length
  tiles : Tiles 0 (s.indices ++ [(s.start, s.stop)]) s.stop
  maxSeqlen : s.maxSeqlen = s.length
  within : List.Forall₂ (Within maxTokens done) (s.indices ++ [(s.start, s.stop)])
    (s.lengths ++ [s.length])

theorem Within.append {range : ℕ × ℕ} {length : ℕ} (h : Within maxTokens done range length)
    (hstop : range.2 ≤ done.length) (l : ℕ) : Within maxTokens (done ++ [l]) range length := by
  obtain ⟨htokens, hmem, hrows⟩ := h
  refine ⟨htokens, List.mem_append_left _ hmem, fun j k hlo hhi hget ↦ ?_⟩
  rw [List.getElem?_append_left (by omega)] at hget
  exact hrows j k hlo hhi hget

theorem forall₂_append_inv {α β : Type} {R : α → β → Prop} {as : List α} {bs : List β} {a : α}
    {b : β} (h : List.Forall₂ R (as ++ [a]) (bs ++ [b])) : List.Forall₂ R as bs ∧ R a b := by
  have hlen : as.length = bs.length := by
    have hboth := h.length_eq
    rw [List.length_append, List.length_append, List.length_singleton,
      List.length_singleton] at hboth
    omega
  have htake := List.forall₂_take_append (as ++ [a]) bs [b] h
  have hdrop := List.forall₂_drop_append (as ++ [a]) bs [b] h
  rw [← hlen, List.take_left] at htake
  rw [← hlen, List.drop_left] at hdrop
  exact ⟨htake, (List.forall₂_cons.mp hdrop).1⟩

theorem planned_first (hl : l ≤ maxTokens) :
    Planned maxTokens [l] (MicroBatches.push maxTokens ⟨[], [], 0, 0, 0, 0⟩ (0, l)) := by
  have hfits : (0 - 0 + 1) * max 0 l ≤ maxTokens := by
    rw [Nat.zero_max, Nat.sub_zero, Nat.zero_add, Nat.one_mul]
    exact hl
  rw [MicroBatches.push, if_pos hfits]
  refine ⟨rfl, ⟨rfl, Nat.zero_lt_one, rfl⟩, rfl, .cons ⟨?_, ?_, ?_⟩ .nil⟩
  · rw [Nat.zero_max]
    simpa using hl
  · rw [Nat.zero_max]
    exact List.mem_singleton.mpr rfl
  · intro j k _ hhi hget
    change j < 0 + 1 at hhi
    obtain rfl : j = 0 := by omega
    obtain rfl := Option.some.inj hget
    exact Nat.le_max_right _ _

theorem Planned.push (h : Planned maxTokens done s) (hl : l ≤ maxTokens) :
    Planned maxTokens (done ++ [l]) (s.push maxTokens (done.length, l)) := by
  obtain ⟨hstop, htiles, hmax, hwithin⟩ := h
  obtain ⟨mid, hclosed, hopen⟩ := tiles_append.mp htiles
  obtain ⟨hstart, hlt, -⟩ := hopen
  obtain ⟨hpast, htokens, hmem, hrows⟩ := forall₂_append_inv hwithin
  have hpast' : List.Forall₂ (Within maxTokens (done ++ [l])) s.indices s.lengths := by
    refine (List.forall₂_iff_zip.mpr ⟨hpast.length_eq, fun {range length} hzip ↦ ?_⟩)
    have hold := (List.forall₂_iff_zip.mp hpast).2 hzip
    refine hold.append ?_ l
    have hle := hclosed.snd_le (List.of_mem_zip hzip).1
    omega
  rw [MicroBatches.push]
  split_ifs with hfits
  · -- the row goes to the open microbatch
    refine ⟨?_, ?_, rfl, List.rel_append hpast' (.cons ⟨?_, ?_, ?_⟩ .nil)⟩
    · show s.stop + 1 = (done ++ [l]).length
      rw [List.length_append, List.length_singleton, hstop]
    · exact tiles_append.mpr ⟨mid, hclosed, hstart, by show s.start < s.stop + 1; omega, rfl⟩
    · show (s.stop + 1 - s.start) * max s.maxSeqlen l ≤ maxTokens
      have hcount : s.stop + 1 - s.start = s.stop - s.start + 1 := by omega
      rw [hcount]
      exact hfits
    · show max s.maxSeqlen l ∈ done ++ [l]
      rcases max_choice s.maxSeqlen l with hm | hm
      · rw [hm, hmax]
        exact List.mem_append_left _ hmem
      · rw [hm]
        exact List.mem_append_right _ (List.mem_singleton.mpr rfl)
    · intro j k hlo hhi hget
      show k ≤ max s.maxSeqlen l
      rcases Nat.lt_or_ge j done.length with hj | hj
      · rw [List.getElem?_append_left hj] at hget
        have hle := hrows j k hlo (by rw [hstop]; exact hj) hget
        exact (hmax ▸ hle).trans (Nat.le_max_left _ _)
      · have hj' : j = done.length := by
          change j < s.stop + 1 at hhi
          omega
        rw [hj', List.getElem?_append_right le_rfl, Nat.sub_self] at hget
        obtain rfl := Option.some.inj hget
        exact Nat.le_max_right _ _
  · -- the open microbatch is closed, and the row opens the next
    have hold : Within maxTokens (done ++ [l]) (s.start, s.stop) s.length :=
      Within.append ⟨htokens, hmem, hrows⟩ hstop.le l
    refine ⟨?_, ?_, rfl, List.rel_append (List.rel_append hpast' (.cons hold .nil))
      (.cons ⟨?_, ?_, ?_⟩ .nil)⟩
    · rw [List.length_append, List.length_singleton]
    · refine tiles_append.mpr ⟨s.stop, htiles, hstop.symm, Nat.lt_succ_self _, rfl⟩
    · rw [Nat.add_sub_cancel_left, Nat.one_mul]
      exact hl
    · exact List.mem_append_right _ (List.mem_singleton.mpr rfl)
    · intro j k hlo hhi hget
      change done.length ≤ j at hlo
      change j < done.length + 1 at hhi
      obtain rfl : j = done.length := by omega
      rw [List.getElem?_append_right le_rfl, Nat.sub_self] at hget
      obtain rfl := Option.some.inj hget
      exact le_rfl

theorem planned_run {lengths : List ℕ} (hne : lengths ≠ []) (hfit : ∀ l ∈ lengths, l ≤ maxTokens) :
    Planned maxTokens lengths ((lengths.zipIdx.map Prod.swap).foldl (MicroBatches.push maxTokens)
      ⟨[], [], 0, 0, 0, 0⟩) := by
  induction lengths using List.reverseRecOn with
  | nil => exact absurd rfl hne
  | append_singleton lengths l ih =>
    have hl : l ≤ maxTokens := hfit l (List.mem_append_right _ (List.mem_singleton.mpr rfl))
    have hinit : ∀ k ∈ lengths, k ≤ maxTokens := fun k hk ↦ hfit k (List.mem_append_left _ hk)
    have hlast : (lengths ++ [l]).zipIdx.map Prod.swap =
        lengths.zipIdx.map Prod.swap ++ [(lengths.length, l)] := by
      rw [List.zipIdx_append, List.map_append]
      simp
    rw [hlast, List.foldl_append, List.foldl_cons, List.foldl_nil]
    by_cases hnil : lengths = []
    · subst hnil
      exact planned_first hl
    · exact (ih hnil hinit).push hl

end Push

section Dynamic

variable {args : DynamicBatchingArgs} {inputLengths : List ℕ}
  {inputSeqlen shardSize chunkIdx : ℕ} {shards : List (List ℕ)} {plan : List (ℕ × ℕ) × List ℕ}

/-- The microbatches of a chunk of dynamic shards: ranges that tile it, within
the budget by the recorded lengths, which no row in them is longer than as far as
the input goes. -/
structure DynamicChunkPlan (args : DynamicBatchingArgs) (inputLengths : List ℕ)
    (inputSeqlen shardSize chunkIdx : ℕ) (shards : List (List ℕ))
    (plan : List (ℕ × ℕ) × List ℕ) : Prop where
  tiles : Tiles 0 plan.1 shardSize
  count : plan.2.length = plan.1.length
  budget : ∀ x ∈ plan.1.zip plan.2, (x.1.2 - x.1.1) * x.2 ≤ args.maxTokensPerMicrobatch
  width : ∀ length ∈ plan.2, length ≤ inputSeqlen
  rows : ∀ x ∈ plan.1.zip plan.2, ∀ rows ∈ shards,
    ∀ r ∈ slice (slice rows (chunkIdx * shardSize) ((chunkIdx + 1) * shardSize)) x.1.1 x.1.2,
      min (inputLengths.getD r 0) inputSeqlen ≤ x.2

variable (args inputLengths inputSeqlen shardSize chunkIdx shards) in
def chunkLengths : List ℕ :=
  (List.range shardSize).map fun shardIndice ↦
    min (roundUp args.sequenceLengthRound ((shards.map fun rows ↦
      inputLengths.getD (rows.getD (chunkIdx * shardSize + shardIndice) 0) 0).foldl max 0))
      inputSeqlen

theorem length_chunkLengths :
    (chunkLengths args inputLengths inputSeqlen shardSize chunkIdx shards).length = shardSize := by
  rw [chunkLengths, List.length_map, List.length_range]

theorem chunkLengths_le {l : ℕ}
    (h : l ∈ chunkLengths args inputLengths inputSeqlen shardSize chunkIdx shards) :
    l ≤ inputSeqlen := by
  obtain ⟨shardIndice, -, rfl⟩ := List.mem_map.mp h
  exact Nat.min_le_right _ _

theorem le_chunkLengths (hround : 0 < args.sequenceLengthRound) {rows : List ℕ}
    (hrows : rows ∈ shards) {j r l : ℕ} (hr : rows[chunkIdx * shardSize + j]? = some r)
    (hl : (chunkLengths args inputLengths inputSeqlen shardSize chunkIdx shards)[j]? = some l) :
    min (inputLengths.getD r 0) inputSeqlen ≤ l := by
  rw [chunkLengths, List.getElem?_map] at hl
  obtain ⟨k, hk, rfl⟩ := Option.map_eq_some_iff.mp hl
  obtain ⟨hj, hget⟩ := List.getElem?_eq_some_iff.mp hk
  obtain rfl : j = k := (List.getElem_range hj).symm.trans hget
  have hrow : rows.getD (chunkIdx * shardSize + j) 0 = r := by
    rw [List.getD_eq_getElem?_getD, hr, Option.getD_some]
  refine min_le_min_right _ (le_trans ?_ (le_roundUp hround _))
  refine le_foldl_max 0 (List.mem_map.mpr ⟨rows, hrows, ?_⟩)
  rw [hrow]

theorem dynamicChunkPlan (hsize : 0 < shardSize) (hround : 0 < args.sequenceLengthRound)
    (h : chunkMicroBatches args inputSeqlen inputLengths shards shardSize chunkIdx = some plan) :
    DynamicChunkPlan args inputLengths inputSeqlen shardSize chunkIdx shards plan := by
  let lengths := chunkLengths args inputLengths inputSeqlen shardSize chunkIdx shards
  let s := (lengths.zipIdx.map Prod.swap).foldl (MicroBatches.push args.maxTokensPerMicrobatch)
    ⟨[], [], 0, 0, 0, 0⟩
  replace h : (if lengths.all (· ≤ args.maxTokensPerMicrobatch) then
      some (s.indices ++ [(s.start, s.stop)], s.lengths ++ [s.length]) else none) = some plan := h
  split_ifs at h with hall
  obtain rfl := Option.some.inj h
  have hlen : lengths.length = shardSize := length_chunkLengths
  have hne : lengths ≠ [] := List.ne_nil_of_length_pos (hlen.symm ▸ hsize)
  have hfit : ∀ l ∈ lengths, l ≤ args.maxTokensPerMicrobatch := fun l hl ↦
    of_decide_eq_true (List.all_eq_true.mp hall l hl)
  have hplanned : Planned args.maxTokensPerMicrobatch lengths s := planned_run hne hfit
  have hstop : s.stop = shardSize := hplanned.stop.trans hlen
  obtain ⟨hcount, hzip⟩ := List.forall₂_iff_zip.mp hplanned.within
  refine ⟨hstop ▸ hplanned.tiles, hcount.symm, fun x hx ↦ (hzip hx).1, ?_, ?_⟩
  · intro length hlength
    obtain ⟨k, hk⟩ := List.mem_iff_getElem?.mp hlength
    have hlt := (List.getElem?_eq_some_iff.mp hk).1
    rw [← hcount] at hlt
    have hpair : ((s.indices ++ [(s.start, s.stop)])[k], length) ∈
        (s.indices ++ [(s.start, s.stop)]).zip (s.lengths ++ [s.length]) := by
      refine List.mem_iff_getElem?.mpr ⟨k, ?_⟩
      rw [List.getElem?_zip_eq_some]
      exact ⟨List.getElem?_eq_getElem hlt, hk⟩
    exact chunkLengths_le (hzip hpair).2.1
  · intro x hx rows hrows r hr
    obtain ⟨j, hj⟩ := List.mem_iff_getElem?.mp hr
    have hspan : x.1.2 ≤ s.stop := hplanned.tiles.snd_le (List.of_mem_zip hx).1
    have hjlt : j < x.1.2 - x.1.1 := by
      have hlt := (List.getElem?_eq_some_iff.mp hj).1
      rw [slice, List.length_take] at hlt
      omega
    rw [getElem?_slice hjlt, getElem?_slice (by rw [Nat.succ_mul]; omega)] at hj
    have hplace : x.1.1 + j < lengths.length := by omega
    have hget := List.getElem?_eq_getElem hplace
    have hrow := le_chunkLengths hround hrows hj hget
    exact hrow.trans ((hzip hx).2.2 (x.1.1 + j) _ (Nat.le_add_right _ _) (by omega) hget)

end Dynamic

section Packed

variable {args : SequencePackingArgs} {packer : SequencePacker} {inputLengths : List ℕ}
  {numChunks batchSize shards shardIdx : ℕ} {assignments : List (List (List ℕ))}
  {x : List (List ℕ) × ℕ}

/-- The microbatches of a shard's rows of a chunk: ranges that tile them, each with
the padded length of its rows, which is within the budget. -/
structure PackedChunkPlan (args : SequencePackingArgs) (inputLengths rows : List ℕ)
    (plan : List (ℕ × ℕ) × List ℕ) : Prop where
  tiles : Tiles 0 plan.1 rows.length
  count : plan.2.length = plan.1.length
  sums : ∀ x ∈ plan.1.zip plan.2, x.2 = ((slice rows x.1.1 x.1.2).map fun r ↦
    roundUp args.sequenceLengthPadMultiple (inputLengths.getD r 0)).sum
  budget : ∀ length ∈ plan.2, (length : ℤ) ≤ args.maxTokensPerMicrobatch

theorem getD_chunkPaddedSeqlens {chunkIdx i : ℕ} (hi : i < batchSize)
    (hlt : i < (chunkPaddedSeqlens args inputLengths batchSize chunkIdx).length) :
    (chunkPaddedSeqlens args inputLengths batchSize chunkIdx).getD i 0 =
      roundUp args.sequenceLengthPadMultiple (inputLengths.getD (i + chunkIdx * batchSize) 0) := by
  have hentry : ((inputLengths.drop (chunkIdx * batchSize)).take batchSize)[i]? =
      inputLengths[i + chunkIdx * batchSize]? := by
    rw [List.getElem?_take_of_lt hi, List.getElem?_drop, Nat.add_comm]
  have hsome : i < ((inputLengths.drop (chunkIdx * batchSize)).take batchSize).length := by
    rw [chunkPaddedSeqlens, List.length_map] at hlt
    exact hlt
  rw [List.getElem?_eq_getElem hsome] at hentry
  rw [chunkPaddedSeqlens, List.getD_eq_getElem?_getD, List.getElem?_map,
    List.getElem?_eq_getElem hsome, List.getD_eq_getElem?_getD, ← hentry]
  rfl

theorem binSeqlen_eq (paddedSeqlens bin : List ℕ) :
    (binSeqlen paddedSeqlens bin : ℤ) =
      (bin.map (lengthAt (paddedSeqlens.map Int.ofNat))).sum := by
  induction bin with
  | nil => rfl
  | cons i bin ih =>
    have hentry : ((paddedSeqlens.getD i 0 : ℕ) : ℤ) =
        lengthAt (paddedSeqlens.map Int.ofNat) i := by
      rw [lengthAt, List.getD_eq_getElem?_getD, List.getD_eq_getElem?_getD,
        List.getElem?_map]
      cases paddedSeqlens[i]? <;> rfl
    rw [List.map_cons, List.sum_cons, ← ih, ← hentry, ← Nat.cast_add]
    rfl

theorem LegalAssignments.packedChunkPlan
    (h : LegalAssignments args packer inputLengths numChunks batchSize shards assignments)
    (hcap : packer.binCapacity = args.maxTokensPerMicrobatch) (hx : x ∈ assignments.zipIdx) :
    PackedChunkPlan args inputLengths (chunkRows args inputLengths batchSize shards shardIdx x)
      (binRanges 0 (chunkBins args inputLengths batchSize shards shardIdx x),
        (chunkBins args inputLengths batchSize shards shardIdx x).map
          (binSeqlen (chunkPaddedSeqlens args inputLengths batchSize x.2))) := by
  set bins := chunkBins args inputLengths batchSize shards shardIdx x with hbins
  have hlegal := h.legalPacking hx
  have hpadded := length_chunkPaddedSeqlens args (h.chunk_lt hx) h.rows
  refine ⟨?_, ?_, ?_, ?_⟩
  · rw [length_chunkRows, ← Nat.zero_add (List.length _)]
    exact binRanges_tiles (h.bin_ne_nil hx)
  · rw [List.length_map, length_binRanges]
  · intro y hy
    obtain ⟨k, hk⟩ := List.mem_iff_getElem?.mp hy
    obtain ⟨hrange, hlength⟩ := List.getElem?_zip_eq_some.mp hk
    rw [List.getElem?_map] at hlength
    obtain ⟨bin, hbin, hseqlen⟩ := Option.map_eq_some_iff.mp hlength
    rw [getElem?_binRanges hbin, Nat.zero_add, Nat.zero_add] at hrange
    have hpart : (bins.map fun bin ↦ bin.map (· + x.2 * batchSize))[k]? =
        some (bin.map (· + x.2 * batchSize)) := by
      rw [List.getElem?_map, hbin]
      rfl
    have hcounts : (bins.map fun bin ↦ bin.map (· + x.2 * batchSize)).map List.length =
        bins.map List.length := by
      rw [List.map_map]
      exact List.map_congr_left fun bin _ ↦ List.length_map (· + x.2 * batchSize)
    have hslice := slice_flatten hpart
    rw [hcounts] at hslice
    rw [← Option.some.inj hrange, ← hseqlen, chunkRows, ← hbins, List.flatMap_def, hslice,
      List.map_map, binSeqlen]
    refine congrArg List.sum (List.map_congr_left fun i hi ↦ ?_)
    have honce := hlegal.once.mem_iff.mp
      (List.mem_flatten.mpr ⟨bin, mem_of_mem_chunkBins (List.mem_of_getElem? hbin), hi⟩)
    rw [List.length_map, List.mem_range] at honce
    exact getD_chunkPaddedSeqlens (hpadded ▸ honce) honce
  · intro length hmem
    obtain ⟨bin, hbin, rfl⟩ := List.mem_map.mp hmem
    rw [binSeqlen_eq, ← hcap]
    exact hlegal.fits bin (mem_of_mem_chunkBins hbin)

end Packed

section Accepted

variable {inputLengths : List ℕ} {inputSeqlen shards : ℕ} {batchSize : Option ℕ}
  {dynamicBatchingArgs : Option DynamicBatchingArgs}
  {sequencePackingArgs : Option SequencePackingArgs} {sharded : List SlicedDataDict}

theorem shardByBatchSize_dynamicPlans {args : DynamicBatchingArgs}
    (h : shardByBatchSize inputLengths inputSeqlen shards batchSize (some args) none =
      some sharded) :
    ∃ plans : List (List (ℕ × ℕ) × List ℕ),
      plans.length = inputLengths.length / batchSize.getD inputLengths.length ∧
      (∀ shard ∈ sharded, shard.microBatchIndices = some (plans.map Prod.fst) ∧
        shard.microBatchLengths = some (plans.map Prod.snd)) ∧
      ∀ chunkIdx plan, plans[chunkIdx]? = some plan →
        DynamicChunkPlan args inputLengths inputSeqlen
          (batchSize.getD inputLengths.length / shards) chunkIdx (sharded.map SlicedDataDict.rows)
          plan := by
  obtain ⟨numChunks, shardSize, chunks, hshards, hsize, hround, hbatch, hlen, hchunks, rfl⟩ :=
    shardByBatchSize_dynamic h
  have hall := forall₂_of_mapM hchunks
  have hdiv : batchSize.getD inputLengths.length / shards = shardSize := by
    rw [hbatch, Nat.mul_div_cancel_left _ hshards]
  have hcount : inputLengths.length / batchSize.getD inputLengths.length = numChunks := by
    rw [hbatch, hlen]
    exact Nat.mul_div_cancel _ (Nat.mul_pos hshards hsize)
  refine ⟨chunks, ?_, ?_, ?_⟩
  · rw [hcount, ← hall.length_eq, List.length_range]
  · intro shard hshard
    obtain ⟨rows, -, rfl⟩ := List.mem_map.mp hshard
    exact ⟨rfl, rfl⟩
  · intro chunkIdx plan hplan
    obtain ⟨i, hi, hchunk⟩ := exists_of_mapM hchunks hplan
    obtain ⟨hlt, hget⟩ := List.getElem?_eq_some_iff.mp hi
    obtain rfl : chunkIdx = i := (List.getElem_range hlt).symm.trans hget
    have hplanned := dynamicChunkPlan hsize hround hchunk
    have hrows : (((List.range shards).map (shardRows
        (dynamicSortedIndices inputLengths shards batchSize) numChunks (shards * shardSize)
          shardSize)).map fun rows ↦ (⟨rows, some (chunks.map Prod.fst),
            some (chunks.map Prod.snd), none⟩ : SlicedDataDict)).map SlicedDataDict.rows =
        (List.range shards).map (shardRows
          (dynamicSortedIndices inputLengths shards batchSize) numChunks (shards * shardSize)
            shardSize) := by
      rw [List.map_map]
      exact List.map_id' _
    rw [hrows, hdiv]
    exact hplanned

theorem shardByBatchSize_packedPlans {args : SequencePackingArgs}
    (h : shardByBatchSize inputLengths inputSeqlen shards batchSize none (some args) =
      some sharded) {chunkIdx : ℕ}
    (hchunk : chunkIdx < inputLengths.length / batchSize.getD inputLengths.length) :
    ∃ m, 0 < m ∧ ∀ shard ∈ sharded, ∃ ranges lengths plan,
      shard.microBatchIndices = some ranges ∧ shard.microBatchLengths = some lengths ∧
      ranges[chunkIdx]? = some plan.1 ∧ lengths[chunkIdx]? = some plan.2 ∧ plan.1.length = m ∧
      PackedChunkPlan args inputLengths
        (shard.rows.filter (· / batchSize.getD inputLengths.length = chunkIdx)) plan := by
  obtain ⟨numChunks, size, packer, assignments, hsize, -, hcap, hlegal, hsharded⟩ :=
    shardByBatchSize_packing h
  rw [hsize] at hchunk ⊢
  have hlt : chunkIdx < assignments.zipIdx.length := by
    rw [hlegal.rows, Nat.mul_div_cancel _ hlegal.batchSize_pos] at hchunk
    rw [List.length_zipIdx, hlegal.count]
    exact hchunk
  have hx : assignments.zipIdx[chunkIdx]? = some assignments.zipIdx[chunkIdx] :=
    List.getElem?_eq_getElem hlt
  set x := assignments.zipIdx[chunkIdx] with hxdef
  have hmem : x ∈ assignments.zipIdx := List.getElem_mem hlt
  refine ⟨x.1.length / shards, (hlegal.length_chunkBins hmem hlegal.shards_pos).2, ?_⟩
  intro shard hshard
  obtain ⟨shardIdx, hshardIdx, heq⟩ : ∃ shardIdx < shards,
      packedShard args inputLengths size shards assignments shardIdx = some shard := by
    obtain ⟨i, hi⟩ := List.mem_iff_getElem?.mp hshard
    obtain ⟨shardIdx, hget, heq⟩ := exists_of_mapM hsharded hi
    exact ⟨shardIdx, List.mem_range.mp (List.mem_of_getElem? hget), heq⟩
  have hpart : (assignments.zipIdx.map
      (chunkRows args inputLengths size shards shardIdx))[chunkIdx]? =
        some (chunkRows args inputLengths size shards shardIdx x) := by
    rw [List.getElem?_map, hx]
    rfl
  rw [hlegal.packedShard_eq hshardIdx] at heq
  obtain rfl := Option.some.inj heq
  refine ⟨_, _, (binRanges 0 (chunkBins args inputLengths size shards shardIdx x),
    (chunkBins args inputLengths size shards shardIdx x).map
      (binSeqlen (chunkPaddedSeqlens args inputLengths size x.2))), rfl, rfl, ?_, ?_, ?_, ?_⟩
  · rw [List.getElem?_map, hx]
    rfl
  · rw [List.getElem?_map, hx]
    rfl
  · rw [length_binRanges]
    exact (hlegal.length_chunkBins hmem hshardIdx).1
  · rw [filter_flatten (· / size) hlegal.div_of_part hpart]
    exact hlegal.packedChunkPlan hcap hmem

/-- The microbatches of a batch, however it is sharded: the same for every shard if
they are dynamic, as many for every shard if they are packed, and within the budget. -/
theorem microbatch_plans
    (h : shardByBatchSize inputLengths inputSeqlen shards batchSize dynamicBatchingArgs
      sequencePackingArgs = some sharded) :
    (∀ args ∈ dynamicBatchingArgs, ∃ plans : List (List (ℕ × ℕ) × List ℕ),
      plans.length = inputLengths.length / batchSize.getD inputLengths.length ∧
      (∀ shard ∈ sharded, shard.microBatchIndices = some (plans.map Prod.fst) ∧
        shard.microBatchLengths = some (plans.map Prod.snd)) ∧
      ∀ chunkIdx plan, plans[chunkIdx]? = some plan →
        DynamicChunkPlan args inputLengths inputSeqlen
          (batchSize.getD inputLengths.length / shards) chunkIdx (sharded.map SlicedDataDict.rows)
          plan) ∧
    ∀ args ∈ sequencePackingArgs,
      ∀ chunkIdx < inputLengths.length / batchSize.getD inputLengths.length,
        ∃ m, 0 < m ∧ ∀ shard ∈ sharded, ∃ ranges lengths plan,
          shard.microBatchIndices = some ranges ∧ shard.microBatchLengths = some lengths ∧
          ranges[chunkIdx]? = some plan.1 ∧ lengths[chunkIdx]? = some plan.2 ∧
          plan.1.length = m ∧ PackedChunkPlan args inputLengths
            (shard.rows.filter (· / batchSize.getD inputLengths.length = chunkIdx)) plan := by
  have hboth : dynamicBatchingArgs = none ∨ sequencePackingArgs = none := by
    rcases dynamicBatchingArgs with - | dynamicArgs
    · exact .inl rfl
    · rcases sequencePackingArgs with - | packingArgs
      · exact .inr rfl
      · cases h
  constructor
  · rintro args rfl
    obtain hnone | rfl := hboth
    · cases hnone
    · exact shardByBatchSize_dynamicPlans h
  · rintro args rfl chunkIdx hchunk
    obtain rfl | hnone := hboth
    · exact shardByBatchSize_packedPlans h hchunk
    · cases hnone

/-- A row that is longer than the input: its microbatch is recorded as long as the input. -/
theorem longRow_exceeds :
    shardByBatchSize [5] 4 1 none (some ⟨8, 1⟩) none =
        some [⟨[0], some [[(0, 1)]], some [[4]], none⟩] ∧
      ¬ ∀ r ∈ slice (slice [0] 0 1) 0 1, [5].getD r 0 ≤ 4 := by
  constructor
  · decide
  · decide

theorem microbatch_plans_fourRows :
    (∃ plans : List (List (ℕ × ℕ) × List ℕ), plans.length = 2 ∧
      ∀ shard ∈ fourRowShards, shard.microBatchIndices = some (plans.map Prod.fst)) ∧
    ∃ sharded,
      shardByBatchSize [1, 2, 3, 4] 4 2 (some 2) none (some firstFitArgs) = some sharded ∧
        ∃ m, 0 < m ∧ ∀ shard ∈ sharded, ∃ ranges plan, shard.microBatchIndices = some ranges ∧
          ranges[0]? = some plan.1 ∧ plan.1.length = m ∧
          PackedChunkPlan firstFitArgs [1, 2, 3, 4] (shard.rows.filter (· / 2 = 0)) plan := by
  constructor
  · obtain ⟨plans, hcount, hshards, -⟩ := (microbatch_plans shardByBatchSize_fourRows).1 fourRows rfl
    exact ⟨plans, hcount, fun shard hshard ↦ (hshards shard hshard).1⟩
  · have hsome : (shardByBatchSize [1, 2, 3, 4] 4 2 (some 2) none (some firstFitArgs)).isSome := by
      decide
    obtain ⟨sharded, hsharded⟩ := Option.isSome_iff_exists.mp hsome
    obtain ⟨m, hm, hshards⟩ := (microbatch_plans hsharded).2 firstFitArgs rfl 0 (by decide)
    refine ⟨sharded, hsharded, m, hm, fun shard hshard ↦ ?_⟩
    obtain ⟨ranges, -, plan, hranges, -, hplan, -, hcount, hpacked⟩ := hshards shard hshard
    exact ⟨ranges, plan, hranges, hplan, hcount, hpacked⟩

end Accepted

end NemoRL.Distributed.BatchedDataDict
