import Mathlib
import NemoRL.DataPlane.Preshard
import NemoRL.DataPlane.PreshardPlaces
import NemoRL.Foundations.Patches

namespace NemoRL.DataPlane.Preshard

open Foundations.Positions Foundations.Blocks Foundations.Patches Distributed.BatchedDataDict
  Data.Packing

def SwapsInPairs (order : List ℕ) : Prop := ∀ i j : ℕ, order[i]? = some j → order[j]? = some i

section Reordering

variable {flat : List ℕ} {n : ℕ}

theorem unsorted_eq (h : flat.Perm (List.range n)) :
    flat.zipIdx.foldl (fun unsorted x ↦ unsorted.set x.1 x.2) (List.replicate n 0) =
      (List.range n).map flat.idxOf := by
  have hnd : flat.Nodup := h.nodup_iff.mpr List.nodup_range
  have hwrites : flat.zipIdx = flat.map fun i ↦ (i, flat.idxOf i) := by
    refine List.ext_getElem (by simp) fun j hj hj' ↦ ?_
    rw [List.length_zipIdx] at hj
    simp [hnd.idxOf_getElem j hj]
  have hscatter := getElem?_scatter flat.idxOf flat (List.replicate n 0)
  refine List.ext_getElem? fun j ↦ ?_
  rw [hwrites]
  refine (hscatter j).trans ?_
  have hmem : j ∈ flat ↔ j < n := by rw [h.mem_iff, List.mem_range]
  by_cases hj : j < n
  · rw [if_pos (hmem.mpr hj), List.getElem?_map, List.getElem?_range hj]
    simp [hj]
  · rw [if_neg (hj ∘ hmem.mp), List.getElem?_eq_none (by simpa using hj),
      List.getElem?_eq_none (by simpa using hj)]

theorem reorderedIndices_eq (h : flat.Perm (List.range n)) :
    reorderedIndices ((List.range n).map flat.idxOf) n = flat := by
  have hnd : flat.Nodup := h.nodup_iff.mpr List.nodup_range
  have hzip : ((List.range n).map flat.idxOf).zip (List.range n) =
      (List.range n).map fun i ↦ (flat.idxOf i, i) := by
    have hboth : ((List.range n).map flat.idxOf).zip ((List.range n).map id) =
        (List.range n).map fun i ↦ (flat.idxOf i, i) := List.zip_map'
    rwa [List.map_id] at hboth
  have hplaces : (flat.map fun i ↦ (flat.idxOf i, i)).map Prod.fst = List.range flat.length := by
    refine List.ext_getElem (by simp) fun j hj hj' ↦ ?_
    simp only [List.length_map] at hj
    simp [hnd.idxOf_getElem j hj]
  have hsorted : (flat.map fun i ↦ (flat.idxOf i, i)).Pairwise fun a b ↦ a.1 ≤ b.1 := by
    rw [← List.pairwise_map (f := Prod.fst) (R := (· ≤ ·)), hplaces]
    exact List.pairwise_lt_range.imp Nat.le_of_lt
  have hperm : (((List.range n).map fun i ↦ (flat.idxOf i, i)).insertionSort
      fun a b ↦ a.1 ≤ b.1).Perm (flat.map fun i ↦ (flat.idxOf i, i)) :=
    (List.perm_insertionSort _ _).trans (h.symm.map _)
  have heq : ((List.range n).map fun i ↦ (flat.idxOf i, i)).insertionSort
      (fun a b ↦ a.1 ≤ b.1) = flat.map fun i ↦ (flat.idxOf i, i) :=
    List.Perm.eq_of_pairwise (fun a b ha hb hab hba ↦ ?_) (List.pairwise_insertionSort _ _)
      hsorted hperm
  · rw [reorderedIndices, hzip, heq, List.map_map]
    exact List.map_id flat
  · obtain ⟨i, hi, rfl⟩ := List.mem_map.mp (hperm.mem_iff.mp ha)
    obtain ⟨j, hj, rfl⟩ := List.mem_map.mp hb
    have hplace : flat.idxOf i = flat.idxOf j := Nat.le_antisymm hab hba
    rw [(List.idxOf_inj hi).mp hplace]

theorem entriesAt_eq_map {α : Type*} (column : List α) (rows : List ℕ)
    (h : ∀ i ∈ rows, i < column.length) :
    (entriesAt column rows).map some = rows.map (column[·]?) := by
  induction rows with
  | nil => rfl
  | cons i rows ih =>
    obtain ⟨hi, hrest⟩ := List.forall_mem_cons.mp h
    have hget := List.getElem?_eq_getElem hi
    rw [List.map_cons, ← ih hrest, entriesAt, List.filterMap_cons, hget]
    rfl

/-- The results come back in order exactly where the order of the rows swaps them
in pairs: it is undone by doing it again. -/
theorem restore_iff (h : flat.Perm (List.range n)) :
    (∀ (α : Type) (column : List α), column.length = n →
      restore (entriesAt column flat) (unsortedIndices flat n) = column) ↔ SwapsInPairs flat := by
  have hlen : flat.length = n := by rw [h.length_eq, List.length_range]
  have hlt : ∀ i ∈ flat, i < n := fun i hi ↦ List.mem_range.mp (h.mem_iff.mp hi)
  have hall : ∀ (α : Type) (column : List α), column.length = n →
      (restore (entriesAt column flat) (unsortedIndices flat n)).map some =
        if flat = List.range n then column.map some
        else flat.map fun i ↦ flat[i]?.bind (column[·]?) := by
    intro α column hcolumn
    have hagg := entriesAt_eq_map column flat fun i hi ↦ by rw [hcolumn]; exact hlt i hi
    unfold unsortedIndices
    by_cases hsame : flat = List.range n
    · rw [if_neg (not_not.mpr hsame), if_pos hsame]
      rw [hsame] at hagg ⊢
      refine hagg.trans (List.ext_getElem? fun i ↦ ?_)
      by_cases hi : i < n
      · simp [hi, hcolumn]
      · simp [hi, hcolumn]
    · have hagglen : (entriesAt column flat).length = n := by
        have hl := congrArg List.length hagg
        simpa [hlen] using hl
      rw [if_pos hsame, if_neg hsame, restore, Option.elim_some, reorderData, hagglen,
        unsorted_eq h, reorderedIndices_eq h,
        entriesAt_eq_map _ _ (fun i hi ↦ by rw [hagglen]; exact hlt i hi)]
      refine List.map_congr_left fun i hi ↦ ?_
      have hmap := congrArg (·[i]?) hagg
      simp only [List.getElem?_map] at hmap
      rw [List.getElem?_eq_getElem (by rw [hagglen]; exact hlt i hi),
        List.getElem?_eq_getElem (by rw [hlen]; exact hlt i hi)] at hmap ⊢
      exact Option.some.inj hmap
  constructor
  · intro hrestore i j hij
    have hi := (List.getElem?_eq_some_iff.mp hij).1
    have hj : j < n := hlt j (List.mem_of_getElem? hij)
    by_cases hsame : flat = List.range n
    · rw [hsame, List.getElem?_range (by omega)] at hij
      obtain rfl := Option.some.inj hij
      rw [hsame, List.getElem?_range hj]
    · have hcol := hall ℕ (List.range n) List.length_range
      rw [hrestore ℕ _ List.length_range, if_neg hsame] at hcol
      have hplace := congrArg (·[i]?) hcol
      simp only [List.getElem?_map, hij, List.getElem?_range (hlen ▸ hi), Option.map_some] at hplace
      rw [List.getElem?_eq_getElem (by omega : j < flat.length)] at hplace ⊢
      have hlt' := hlt _ (List.getElem_mem (by omega : j < flat.length))
      rw [Option.bind_some, List.getElem?_range hlt'] at hplace
      simpa using (Option.some.inj hplace).symm
  · intro hswaps α column hcolumn
    refine List.map_injective_iff.mpr (Option.some_injective α) ?_
    rw [hall α column hcolumn]
    split_ifs with hsame
    · rfl
    · refine List.ext_getElem (by simp [hlen, hcolumn]) fun i hi hi' ↦ ?_
      rw [List.length_map] at hi hi'
      have hij : flat[i]? = some flat[i] := List.getElem?_eq_getElem hi
      simp only [List.getElem_map, hswaps i _ hij, Option.bind_some]
      exact List.getElem?_eq_getElem hi'

theorem swapsInPairs_iff (h : flat.Perm (List.range n)) :
    SwapsInPairs flat ↔ ∀ row < n, flat.idxOf (flat.idxOf row) = row := by
  have hnd : flat.Nodup := h.nodup_iff.mpr List.nodup_range
  have hlen : flat.length = n := by rw [h.length_eq, List.length_range]
  have hplace : ∀ {i j : ℕ}, flat[i]? = some j ↔ j < n ∧ flat.idxOf j = i := by
    intro i j
    constructor
    · intro hij
      obtain ⟨hi, rfl⟩ := List.getElem?_eq_some_iff.mp hij
      exact ⟨List.mem_range.mp (h.mem_iff.mp (List.getElem_mem hi)), hnd.idxOf_getElem i hi⟩
    · rintro ⟨hj, rfl⟩
      exact List.getElem?_idxOf (h.mem_iff.mpr (List.mem_range.mpr hj))
  constructor
  · intro hswaps row hrow
    exact (hplace.mp (hswaps _ _ (hplace.mpr ⟨hrow, rfl⟩))).2
  · intro hback i j hij
    have hi := (List.getElem?_eq_some_iff.mp hij).1
    obtain ⟨hj, rfl⟩ := hplace.mp hij
    exact hplace.mpr ⟨hlen ▸ hi, hback j hj⟩

/-- Going twice to where a row is dealt leads back to it. -/
def InPairs (deal : ℕ → Dealt) (n : ℕ) : Prop :=
  ∀ row < n, placeOf deal n (placeOf deal n row) = row

theorem swapsInPairs_iff_inPairs {deal : ℕ → Dealt} (h : flat.Perm (List.range n))
    (hdeal : flat.Pairwise fun a b ↦ (deal a).Before (deal b)) :
    SwapsInPairs flat ↔ InPairs deal n := by
  rw [swapsInPairs_iff h]
  refine forall₂_congr fun row hrow ↦ ?_
  have hplace : flat.idxOf row < n := by
    rw [← List.length_range (n := n), ← h.length_eq]
    exact List.idxOf_lt_length_iff.mpr (h.mem_iff.mpr (List.mem_range.mpr hrow))
  rw [placeOf_eq h hdeal hrow, placeOf_eq h hdeal hplace]

end Reordering

section Plain

variable {numChunks shards shardSize : ℕ}

def plainOrder (numChunks shards shardSize : ℕ) : List ℕ :=
  (List.range shards).flatMap (shardRows (List.range (numChunks * (shards * shardSize))) numChunks
    (shards * shardSize) shardSize)

theorem getElem?_plainOrder {shardIdx chunkIdx o : ℕ} (hs : shardIdx < shards)
    (hc : chunkIdx < numChunks) (ho : o < shardSize) :
    (plainOrder numChunks shards shardSize)[shardIdx * (numChunks * shardSize) +
        (chunkIdx * shardSize + o)]? =
      some (chunkIdx * (shards * shardSize) + (shardIdx * shardSize + o)) := by
  have hpart : ∀ s < shards, ∀ c < numChunks, c * (shards * shardSize) + s * shardSize + shardSize ≤
      numChunks * (shards * shardSize) := by
    intro s hs c hc
    have hrow : (s + 1) * shardSize ≤ shards * shardSize := Nat.mul_le_mul_right _ hs
    have hchunk : (c + 1) * (shards * shardSize) ≤ numChunks * (shards * shardSize) :=
      Nat.mul_le_mul_right _ hc
    rw [Nat.succ_mul] at hrow hchunk
    omega
  have hblock : ∀ s < shards, ∀ c < numChunks, (((List.range (numChunks * (shards * shardSize))).drop
      (c * (shards * shardSize) + s * shardSize)).take shardSize).length = shardSize := by
    intro s hs c hc
    have hle := hpart s hs c hc
    rw [List.length_take, List.length_drop, List.length_range]
    omega
  have hrows : ∀ s < shards, (shardRows (List.range (numChunks * (shards * shardSize))) numChunks
      (shards * shardSize) shardSize s).length = numChunks * shardSize := by
    intro s hs
    rw [shardRows, List.length_flatMap, List.map_congr_left fun c hc ↦
      hblock s hs c (List.mem_range.mp hc)]
    simp
  have hplace : chunkIdx * shardSize + o < numChunks * shardSize := by
    have hle : (chunkIdx + 1) * shardSize ≤ numChunks * shardSize := Nat.mul_le_mul_right _ hc
    rw [Nat.succ_mul] at hle
    omega
  rw [plainOrder, getElem?_flatMap_range hrows hs hplace, shardRows,
    getElem?_flatMap_range (hblock shardIdx hs) hc ho, List.getElem?_take_of_lt ho,
    List.getElem?_drop, List.getElem?_range (by have := hpart shardIdx hs chunkIdx hc; omega)]
  congr 1
  omega

theorem length_plainOrder : (plainOrder numChunks shards shardSize).length =
    numChunks * (shards * shardSize) := by
  have hperm : (plainOrder numChunks shards shardSize).Perm
      (List.range (numChunks * (shards * shardSize))) :=
    shardRows_perm rfl (by rw [List.length_range])
  rw [hperm.length_eq, List.length_range]

theorem plainOrder_swaps (hn : 0 < numChunks) (hs : 0 < shards) (hm : 0 < shardSize) :
    SwapsInPairs (plainOrder numChunks shards shardSize) ↔
      numChunks = 1 ∨ shards = 1 ∨ numChunks = shards := by
  constructor
  · intro h
    by_contra hnone
    push Not at hnone
    obtain ⟨hn₁, hs₁, hne⟩ := hnone
    have hfirst : (plainOrder numChunks shards shardSize)[
        0 * (numChunks * shardSize) + (1 * shardSize + 0)]? =
          some (1 * (shards * shardSize) + (0 * shardSize + 0)) :=
      getElem?_plainOrder hs (by omega) hm
    have hback := h _ _ hfirst
    -- The row there is in the chunk that the number of shards leaves as a remainder.
    have hmod : shards % numChunks < numChunks := Nat.mod_lt _ hn
    have hdiv : shards / numChunks < shards := Nat.div_lt_self hs (by omega)
    have hplace := getElem?_plainOrder (o := 0) hdiv hmod hm
    have hsplit : shards / numChunks * (numChunks * shardSize) + (shards % numChunks * shardSize + 0) =
        1 * (shards * shardSize) + (0 * shardSize + 0) := by
      have hshards := Nat.div_add_mod' shards numChunks
      calc _ = (shards / numChunks * numChunks + shards % numChunks) * shardSize := by ring
        _ = shards * shardSize := by rw [hshards]
        _ = _ := by ring
    rw [hsplit, hback] at hplace
    have heq := Option.some.inj hplace
    have hone : shards % numChunks * shards + shards / numChunks = 1 := by
      apply Nat.eq_of_mul_eq_mul_right hm
      calc _ = shards % numChunks * (shards * shardSize) + (shards / numChunks * shardSize + 0) := by ring
        _ = 0 * (numChunks * shardSize) + (1 * shardSize + 0) := heq.symm
        _ = _ := by ring
    have hrem : shards % numChunks = 0 := by
      by_contra hpos
      have hle : 1 * shards ≤ shards % numChunks * shards :=
        Nat.mul_le_mul_right _ (Nat.pos_of_ne_zero hpos)
      have hsum : 1 * shards ≤ 1 := by
        calc 1 * shards ≤ shards % numChunks * shards := hle
          _ ≤ shards % numChunks * shards + shards / numChunks := Nat.le_add_right _ _
          _ = 1 := hone
      omega
    rw [hrem, Nat.zero_mul, Nat.zero_add] at hone
    have hshards := Nat.div_add_mod' shards numChunks
    rw [hone, hrem] at hshards
    omega
  · intro h i j hij
    have hi := (List.getElem?_eq_some_iff.mp hij).1
    rw [length_plainOrder] at hi
    have hblock : 0 < numChunks * shardSize := Nat.mul_pos hn hm
    -- The place of an entry as its shard, its chunk and the rest.
    obtain ⟨s, c, o, hs', hc', ho', rfl⟩ : ∃ s c o, s < shards ∧ c < numChunks ∧ o < shardSize ∧
        i = s * (numChunks * shardSize) + (c * shardSize + o) := by
      refine ⟨i / (numChunks * shardSize), i % (numChunks * shardSize) / shardSize,
        i % (numChunks * shardSize) % shardSize, ?_, ?_, Nat.mod_lt _ hm, ?_⟩
      · rw [Nat.div_lt_iff_lt_mul hblock]
        calc i < numChunks * (shards * shardSize) := hi
          _ = shards * (numChunks * shardSize) := by ring
      · rw [Nat.div_lt_iff_lt_mul hm]
        exact Nat.mod_lt _ hblock
      · rw [Nat.div_add_mod', Nat.div_add_mod']
    rw [getElem?_plainOrder hs' hc' ho'] at hij
    obtain rfl := Option.some.inj hij
    rcases h with rfl | rfl | rfl
    · obtain rfl : c = 0 := by omega
      have hsame := getElem?_plainOrder hs' hn ho'
      simp only [Nat.zero_mul, Nat.zero_add, Nat.one_mul] at hsame ⊢
      exact hsame
    · obtain rfl : s = 0 := by omega
      have hsame := getElem?_plainOrder hs hc' ho'
      simp only [Nat.zero_mul, Nat.zero_add, Nat.one_mul] at hsame ⊢
      exact hsame
    · exact getElem?_plainOrder hc' hs' ho'

end Plain

section Deal

variable {ω : Type} {batch : KVBatchMeta ω} {dpWorld : ℕ} {batchSize : Option ℕ}
  {sequencePackingArgs : Option SequencePackingArgs} {dynamicBatchingArgs : Option DynamicBatchingArgs}

structure Deals (batch : KVBatchMeta ω) (seqLens : List ℕ) (sharded : List SlicedDataDict)
    (metas : List (KVBatchMeta ω)) : Prop where
  rows : (sharded.flatMap SlicedDataDict.rows).Perm (List.range batch.sampleIds.length)
  ranks : List.Forall₂ (fun shard m ↦ m.sampleIds = shard.rows.map (batch.sampleIds.getD · "") ∧
    m.sequenceLengths = some (shard.rows.map (seqLens.getD · 0))) sharded metas
  sampleIds : (metas.flatMap KVBatchMeta.sampleIds).Perm batch.sampleIds

def Restores (sharded : List SlicedDataDict) (n : ℕ) (unsorted : Option (List ℕ)) : Prop :=
  ∀ (α : Type) (column : List α), column.length = n →
    restore (sharded.flatMap fun shard ↦ entriesAt column shard.rows) unsorted = column

/-- Plain, there is one chunk or one rank, or as many of both. Otherwise the rows
change places in pairs, where the places are counted from the lengths and the bins. -/
def DealtInPairs (seqLens : List ℕ) (dpWorld : ℕ) (batchSize : Option ℕ)
    (sequencePackingArgs : Option SequencePackingArgs)
    (dynamicBatchingArgs : Option DynamicBatchingArgs) : Prop :=
  let size := batchSize.getD seqLens.length
  match sequencePackingArgs, dynamicBatchingArgs with
  | none, none =>
    seqLens.length / size = 1 ∨ dpWorld = 1 ∨ seqLens.length / size = dpWorld
  | none, some _ => InPairs (dynamicDeal seqLens dpWorld size) seqLens.length
  | some args, _ =>
    InPairs (packedDeal args seqLens dpWorld size (packBins args seqLens dpWorld size))
      seqLens.length

theorem deals_of_shards {seqLens : List ℕ} {sharded : List SlicedDataDict}
    (hlen : seqLens.length = batch.sampleIds.length)
    (h : skeletonShards seqLens dpWorld batchSize sequencePackingArgs dynamicBatchingArgs =
      some sharded) : Deals batch seqLens sharded (sharded.map (rankMeta batch seqLens)) := by
  have hrows := shardByBatchSize_perm h
  rw [hlen] at hrows
  refine ⟨hrows, ?_, ?_⟩
  · rw [List.forall₂_map_right_iff]
    exact List.forall₂_same.mpr fun shard _ ↦ ⟨rfl, rfl⟩
  · have hids : (sharded.map (rankMeta batch seqLens)).flatMap KVBatchMeta.sampleIds =
        (sharded.flatMap SlicedDataDict.rows).map (batch.sampleIds.getD · "") := by
      rw [List.flatMap_map, List.map_flatMap]
      rfl
    rw [hids]
    refine (hrows.map _).trans (.of_eq ?_)
    refine List.ext_getElem (by simp) fun i hi hi' ↦ ?_
    rw [List.getElem_map, List.getElem_range, List.getD_eq_getElem _ _ hi']

theorem plain_rows {seqLens : List ℕ} {sharded : List SlicedDataDict}
    (h : skeletonShards seqLens dpWorld batchSize none none = some sharded) :
    ∃ numChunks shardSize, 0 < dpWorld ∧ batchSize.getD seqLens.length = dpWorld * shardSize ∧
      seqLens.length / batchSize.getD seqLens.length = numChunks ∧
      seqLens.length = numChunks * (dpWorld * shardSize) ∧ 0 < shardSize ∧
      sharded.flatMap SlicedDataDict.rows = plainOrder numChunks dpWorld shardSize := by
  unfold skeletonShards shardByBatchSize at h
  simp only at h
  generalize batchSize.getD seqLens.length = b at h ⊢
  by_cases hbad : b = 0 ∨ seqLens.length % b ≠ 0 ∨ dpWorld = 0 ∨ b % dpWorld ≠ 0
  · rw [if_neg (by simp), if_pos hbad] at h
    cases h
  rw [if_neg (by simp), if_neg hbad] at h
  obtain rfl := Option.some.inj h
  push Not at hbad
  obtain ⟨hb, hmod, hs, hdiv⟩ := hbad
  have hlen : seqLens.length = seqLens.length / b * b :=
    (Nat.div_mul_cancel (Nat.dvd_of_mod_eq_zero hmod)).symm
  have hbatch : b = dpWorld * (b / dpWorld) :=
    (Nat.mul_div_cancel' (Nat.dvd_of_mod_eq_zero hdiv)).symm
  refine ⟨seqLens.length / b, b / dpWorld, Nat.pos_of_ne_zero hs, hbatch, rfl, ?_, ?_, ?_⟩
  · rw [← hbatch]
    exact hlen
  · refine Nat.pos_of_ne_zero fun hzero ↦ hb ?_
    rw [hbatch, hzero, Nat.mul_zero]
  · rw [List.flatMap_map, plainOrder, ← hbatch, ← hlen]

theorem dynamic_rows {seqLens : List ℕ} {args : DynamicBatchingArgs}
    {sharded : List SlicedDataDict}
    (h : skeletonShards seqLens dpWorld batchSize none (some args) = some sharded) :
    (sharded.flatMap SlicedDataDict.rows).Pairwise fun a b ↦
      (dynamicDeal seqLens dpWorld (batchSize.getD seqLens.length) a).Before
        (dynamicDeal seqLens dpWorld (batchSize.getD seqLens.length) b) := by
  obtain ⟨numChunks, shardSize, chunks, hs, hm, -, hb, hlen, -, rfl⟩ := shardByBatchSize_dynamic h
  have hchunks : seqLens.length / (dpWorld * shardSize) = numChunks := by
    rw [hlen, Nat.mul_div_cancel _ (Nat.mul_pos hs hm)]
  rw [List.flatMap_map, List.flatMap_map, dynamicSortedIndices, hb, hchunks]
  exact dynamic_pairwise hs hlen

theorem packed_rows {seqLens : List ℕ} {args : SequencePackingArgs}
    {sharded : List SlicedDataDict}
    (h : skeletonShards seqLens dpWorld batchSize (some args) none = some sharded) :
    ∃ numChunks size, batchSize.getD seqLens.length = size ∧ 0 < size ∧
      (∀ c < numChunks,
        (packBins args seqLens dpWorld size c).flatten.Perm (List.range size)) ∧
      sharded.flatMap SlicedDataDict.rows = (List.range dpWorld).flatMap fun s ↦
        (List.range numChunks).flatMap fun c ↦
          (rankRows args seqLens dpWorld size (packBins args seqLens dpWorld size) s c).map
            (· + c * size) := by
  unfold skeletonShards shardByBatchSize at h
  simp only [Option.isSome_some, Option.isSome_none, Bool.false_eq_true, false_and, if_false] at h
  generalize batchSize.getD seqLens.length = size at h ⊢
  split_ifs at h with hbad hargs
  push Not at hbad
  obtain ⟨hb, hmod, hs, -⟩ := hbad
  obtain ⟨packer, hcreate, -⟩ :=
    create_shards args.maxTokensPerMicrobatch (Nat.pos_of_ne_zero hs)
  rw [hcreate] at h
  obtain ⟨assignments, hassignments, hsharded⟩ := Option.bind_eq_some_iff.mp h
  have hlen : seqLens.length = seqLens.length / size * size :=
    (Nat.div_mul_cancel (Nat.dvd_of_mod_eq_zero hmod)).symm
  obtain ⟨hcount, hbins⟩ := assignments_perm (Nat.pos_of_ne_zero hb) hlen hassignments
  have hpacked : assignments =
      (List.range (seqLens.length / size)).map (packBins args seqLens dpWorld size) := by
    refine Eq.symm ((List.forall₂_eq_eq_eq (α := List (List ℕ))) ▸ ?_)
    refine List.forall₂_map_left_iff.mpr ((forall₂_of_mapM hassignments).imp fun c bins hpack ↦ ?_)
    rw [packBins, hcreate]
    exact Option.getD_eq_iff.mpr (.inl hpack)
  have hzip : assignments.zipIdx = (List.range (seqLens.length / size)).map
      fun c ↦ (packBins args seqLens dpWorld size c, c) := by
    rw [hpacked]
    refine List.ext_getElem (by simp) fun i hi hi' ↦ ?_
    simp
  refine ⟨seqLens.length / size, size, rfl, Nat.pos_of_ne_zero hb, fun c hc ↦ ?_, ?_⟩
  · refine hbins (_, c) ?_
    rw [hzip]
    exact List.mem_map.mpr ⟨c, List.mem_range.mpr hc, rfl⟩
  · rw [packedShards_rows hsharded]
    refine List.flatMap_congr fun s _ ↦ ?_
    rw [binsOfShard, hzip, List.map_map, List.flatMap_map]
    refine List.flatMap_congr fun c _ ↦ ?_
    rw [rankRows, List.map_flatten, List.flatMap_def]
    rfl

end Deal

/-- The ranks always get every row once and with its length. Their results come back
in the order of the batch exactly where the rows are dealt out in pairs. -/
theorem shard_meta_restores_iff {ω : Type} (batch : KVBatchMeta ω) (dpWorld : ℕ)
    (batchSize : Option ℕ) (sequencePackingArgs : Option SequencePackingArgs)
    (dynamicBatchingArgs : Option DynamicBatchingArgs) (seqLens : List ℕ)
    (sharded : List SlicedDataDict) (metas : List (KVBatchMeta ω)) (unsorted : Option (List ℕ))
    (hlens : batch.sequenceLengths = some seqLens)
    (hsharded : skeletonShards seqLens dpWorld batchSize sequencePackingArgs dynamicBatchingArgs =
      some sharded)
    (h : shardMetaForDp batch dpWorld batchSize sequencePackingArgs dynamicBatchingArgs =
      some (metas, unsorted)) :
    (Deals batch seqLens sharded metas ∧ Restores sharded batch.sampleIds.length unsorted) ↔
      DealtInPairs seqLens dpWorld batchSize sequencePackingArgs dynamicBatchingArgs := by
  unfold shardMetaForDp at h
  simp only [hlens, hsharded, Option.map_some] at h
  split_ifs at h with hbad
  push Not at hbad
  obtain ⟨hn, hlen, -⟩ := hbad
  obtain ⟨rfl, rfl⟩ := Prod.mk.inj (Option.some.inj h)
  have hdeals := deals_of_shards hlen hsharded
  have hjoin : ∀ (α : Type) (column : List α), (sharded.flatMap fun shard ↦
      entriesAt column shard.rows) = entriesAt column (sharded.flatMap SlicedDataDict.rows) := by
    intro α column
    unfold entriesAt
    rw [List.filterMap_flatMap]
  have hrestores : Restores sharded batch.sampleIds.length
      (unsortedIndices (sharded.flatMap SlicedDataDict.rows) batch.sampleIds.length) ↔
        SwapsInPairs (sharded.flatMap SlicedDataDict.rows) := by
    rw [← restore_iff hdeals.rows]
    unfold Restores
    simp only [hjoin]
  rw [and_iff_right hdeals, hrestores]
  have hrows := hdeals.rows
  rw [← hlen] at hrows
  cases hpacking : sequencePackingArgs with
  | some args =>
    cases hdynamic : dynamicBatchingArgs with
    | some dynamicArgs =>
      rw [hpacking, hdynamic] at hsharded
      cases hsharded
    | none =>
      rw [hpacking, hdynamic] at hsharded
      obtain ⟨numChunks, size, hb, hsize, hbins, hflat⟩ := packed_rows hsharded
      simp only [DealtInPairs, hb]
      refine swapsInPairs_iff_inPairs hrows ?_
      rw [hflat]
      exact packed_pairwise hsize hbins
  | none =>
    cases hdynamic : dynamicBatchingArgs with
    | some args =>
      rw [hpacking, hdynamic] at hsharded
      exact swapsInPairs_iff_inPairs hrows (dynamic_rows hsharded)
    | none =>
      rw [hpacking, hdynamic] at hsharded
      obtain ⟨numChunks, shardSize, hs, hb, hchunks, htotal, hm, hflat⟩ := plain_rows hsharded
      have hpos : 0 < numChunks := by
        refine Nat.pos_of_ne_zero fun hzero ↦ hn ?_
        rw [← hlen, htotal, hzero, Nat.zero_mul]
      rw [hflat, plainOrder_swaps hpos hs hm]
      simp only [DealtInPairs, hchunks]

def rowsOf (sampleIds : List String) (seqLens : List ℕ) : KVBatchMeta Unit :=
  ⟨"train", none, sampleIds, none, some seqLens, []⟩

def pairShards (numChunks : ℕ) : List SlicedDataDict :=
  [⟨(List.range numChunks).map (2 * ·), none, none, none⟩,
    ⟨(List.range numChunks).map (2 * · + 1), none, none, none⟩]

theorem shard_meta_restores_iff_square : Deals (rowsOf ["a", "b", "a", "c"] [3, 1, 4, 1]) [3, 1, 4, 1]
    (pairShards 2) ((pairShards 2).map (rankMeta (rowsOf ["a", "b", "a", "c"] [3, 1, 4, 1]) [3, 1, 4, 1])) ∧
      Restores (pairShards 2) 4 (some [0, 2, 1, 3]) :=
  (shard_meta_restores_iff (rowsOf ["a", "b", "a", "c"] [3, 1, 4, 1]) 2 (some 2) none none [3, 1, 4, 1]
    (pairShards 2) _ (some [0, 2, 1, 3]) rfl (by decide) rfl).mpr (.inr (.inr (by decide)))

/-- Three chunks on two ranks come back in another order. -/
theorem three_chunks_scrambled :
    (shardMetaForDp (rowsOf ["a", "b", "c", "d", "e", "f"] [1, 1, 1, 1, 1, 1]) 2 (some 2) none
        none).map Prod.snd = some (some [0, 3, 1, 4, 2, 5]) ∧
      (shardMetaForDp (rowsOf ["a", "b", "c", "d", "e", "f"] [1, 1, 1, 1, 1, 1]) 2 (some 2) none
        none).map (fun x ↦ x.1.map KVBatchMeta.sampleIds) = some [["a", "c", "e"], ["b", "d", "f"]] ∧
      restore (["a", "c", "e"] ++ ["b", "d", "f"]) (some [0, 3, 1, 4, 2, 5]) =
        ["a", "e", "d", "c", "b", "f"] := by
  refine ⟨by decide, by decide, by decide⟩

end NemoRL.DataPlane.Preshard
