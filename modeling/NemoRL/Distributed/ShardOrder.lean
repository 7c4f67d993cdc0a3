import Mathlib
import NemoRL.Distributed.ShardRows
import NemoRL.Foundations.Ragged

namespace NemoRL.Distributed.BatchedDataDict

open Foundations.Positions Foundations.Blocks Foundations.Ragged Data.Packing

section Reordering

variable {α : Type} {indices : List ℕ} {n : ℕ}

theorem reorderedIndices_perm (h : indices.Perm (List.range n)) :
    reorderedIndices indices n = (List.range n).map indices.idxOf := by
  have hnd : indices.Nodup := h.nodup_iff.mpr List.nodup_range
  have hlen : indices.length = n := by rw [h.length_eq, List.length_range]
  have hzip : indices.zip (List.range n) = indices.map fun i ↦ (i, indices.idxOf i) := by
    refine List.ext_getElem (by simp [hlen]) fun j hj hj' ↦ ?_
    rw [List.length_map] at hj'
    simp [hnd.idxOf_getElem j hj']
  have hperm : ((indices.map fun i ↦ (i, indices.idxOf i)).insertionSort
      fun a b ↦ a.1 ≤ b.1).Perm ((List.range n).map fun i ↦ (i, indices.idxOf i)) :=
    (List.perm_insertionSort _ _).trans (h.map _)
  have hsorted : ((List.range n).map fun i ↦ (i, indices.idxOf i)).Pairwise
      fun a b ↦ a.1 ≤ b.1 :=
    List.pairwise_map.mpr (List.pairwise_lt_range.imp Nat.le_of_lt)
  have heq : (indices.map fun i ↦ (i, indices.idxOf i)).insertionSort (fun a b ↦ a.1 ≤ b.1) =
      (List.range n).map fun i ↦ (i, indices.idxOf i) := by
    refine List.Perm.eq_of_pairwise (fun a b ha hb hab hba ↦ ?_) (List.pairwise_insertionSort _ _)
      hsorted hperm
    obtain ⟨i, -, rfl⟩ := List.mem_map.mp (hperm.mem_iff.mp ha)
    obtain ⟨j, -, rfl⟩ := List.mem_map.mp hb
    obtain rfl : i = j := Nat.le_antisymm hab hba
    rfl
  rw [reorderedIndices, hzip, heq, List.map_map]
  rfl

theorem getElem?_entriesAt {column : List α} (h : ∀ i ∈ indices, i < column.length) (j : ℕ) :
    (entriesAt column indices)[j]? = indices[j]?.bind (column[·]?) := by
  induction indices generalizing j with
  | nil => rfl
  | cons i indices ih =>
    obtain ⟨hi, hrest⟩ := List.forall_mem_cons.mp h
    have hcons : entriesAt column (i :: indices) = column[i] :: entriesAt column indices := by
      rw [entriesAt, List.filterMap_cons, List.getElem?_eq_getElem hi]
      rfl
    rw [hcons]
    cases j with
    | zero =>
      rw [List.getElem?_cons_zero, List.getElem?_cons_zero, Option.bind_some,
        List.getElem?_eq_getElem hi]
    | succ j => exact ih hrest j

theorem reorderData_entriesAt {column : List α} (h : indices.Perm (List.range column.length)) :
    reorderData (entriesAt column indices) indices = column := by
  have hlt : ∀ i ∈ indices, i < column.length := fun i hi ↦ List.mem_range.mp (h.mem_iff.mp hi)
  have hlen : (entriesAt column indices).length = column.length := by
    rw [length_entriesAt hlt, h.length_eq, List.length_range]
  have hplaces : ∀ i ∈ (List.range column.length).map indices.idxOf,
      i < (entriesAt column indices).length := by
    intro i hi
    obtain ⟨k, hk, rfl⟩ := List.mem_map.mp hi
    rw [hlen, ← List.length_range (n := column.length), ← h.length_eq]
    exact List.idxOf_lt_length_iff.mpr (h.mem_iff.mpr hk)
  rw [reorderData, hlen, reorderedIndices_perm h]
  refine List.ext_getElem? fun j ↦ ?_
  rw [getElem?_entriesAt hplaces, List.getElem?_map]
  rcases Nat.lt_or_ge j column.length with hj | hj
  · have hmem : j ∈ indices := h.mem_iff.mpr (List.mem_range.mpr hj)
    rw [List.getElem?_range hj, Option.map_some, Option.bind_some, getElem?_entriesAt hlt,
      List.getElem?_idxOf hmem, Option.bind_some]
  · rw [List.getElem?_eq_none (by simpa using hj), List.getElem?_eq_none hj]
    rfl

theorem entriesAt_flatMap {β : Type} (column : List α) (l : List β) (f : β → List ℕ) :
    entriesAt column (l.flatMap f) = l.flatMap fun b ↦ entriesAt column (f b) := by
  rw [entriesAt, List.filterMap_flatMap]
  rfl

end Reordering

section Columns

variable {α : Type}

def SlicedDataDict.select (shard : SlicedDataDict) (column : List α) : List α :=
  entriesAt column shard.rows

def gathered (sharded : List SlicedDataDict) (column : List α) : List α :=
  sharded.flatMap fun shard ↦ shard.select column

/-- The shards hold each column as the indices permute it, and `reorder_data`
puts it back. -/
def RoundTrips (sharded : List SlicedDataDict) (indices : List ℕ) (totalBatchSize : ℕ) : Prop :=
  ∀ (α : Type) (column : List α), column.length = totalBatchSize →
    gathered sharded column = entriesAt column indices ∧
      reorderData (gathered sharded column) indices = column

theorem gathered_eq (sharded : List SlicedDataDict) (column : List α) :
    gathered sharded column = entriesAt column (sharded.flatMap SlicedDataDict.rows) :=
  (entriesAt_flatMap column sharded SlicedDataDict.rows).symm

theorem entriesAt_range {rows : List ℕ} {n : ℕ} (h : ∀ i ∈ rows, i < n) :
    entriesAt (List.range n) rows = rows := by
  have hlt : ∀ i ∈ rows, i < (List.range n).length := by
    rw [List.length_range]
    exact h
  refine List.ext_getElem? fun j ↦ ?_
  rw [getElem?_entriesAt hlt]
  cases hj : rows[j]? with
  | none => rfl
  | some i => rw [Option.bind_some, List.getElem?_range (h i (List.mem_of_getElem? hj))]

theorem roundTrips_iff_rows {sharded : List SlicedDataDict} {indices : List ℕ} {n : ℕ}
    (hrows : (sharded.flatMap SlicedDataDict.rows).Perm (List.range n))
    (hindices : indices.Perm (List.range n)) :
    RoundTrips sharded indices n ↔ sharded.flatMap SlicedDataDict.rows = indices := by
  constructor
  · intro h
    have hcolumn := (h ℕ (List.range n) List.length_range).1
    rw [gathered_eq, entriesAt_range fun i hi ↦ List.mem_range.mp (hrows.mem_iff.mp hi),
      entriesAt_range fun i hi ↦ List.mem_range.mp (hindices.mem_iff.mp hi)] at hcolumn
    exact hcolumn
  · intro heq α column hlen
    have hgathered : gathered sharded column = entriesAt column indices := by
      rw [gathered_eq, heq]
    refine ⟨hgathered, ?_⟩
    rw [hgathered]
    exact reorderData_entriesAt (hlen ▸ hindices)

end Columns

section Dynamic

variable {order : List ℕ} {numChunks batchSize shards shardSize : ℕ}

def dynamicSortedIndices (inputLengths : List ℕ) (shards : ℕ) (batchSize : Option ℕ) : List ℕ :=
  let totalBatchSize := inputLengths.length
  let batchSize := batchSize.getD totalBatchSize
  batchSortedIndices inputLengths (totalBatchSize / batchSize) batchSize shards

theorem length_shardRows (hbatch : batchSize = shards * shardSize)
    (hlen : order.length = numChunks * batchSize) {shardIdx : ℕ} (hshard : shardIdx < shards) :
    (shardRows order numChunks batchSize shardSize shardIdx).length = numChunks * shardSize := by
  refine length_flatMap_range fun chunkIdx hchunk ↦ ?_
  have hle : (chunkIdx + 1) * batchSize ≤ numChunks * batchSize := Nat.mul_le_mul_right _ hchunk
  have hpart : (shardIdx + 1) * shardSize ≤ shards * shardSize := Nat.mul_le_mul_right _ hshard
  rw [Nat.succ_mul] at hle hpart
  rw [List.length_take, List.length_drop]
  omega

/-- With two shards and two chunks, what follows the first shard's part of the
first chunk is its part of the second. -/
theorem getElem?_flatMap_shardRows (hbatch : batchSize = shards * shardSize)
    (hlen : order.length = numChunks * batchSize) (hshards : 0 < shards) (hsize : 0 < shardSize)
    (hchunks : 1 < numChunks) :
    ((List.range shards).flatMap (shardRows order numChunks batchSize shardSize))[shardSize]? =
      order[batchSize]? := by
  have hfirst : ((List.range shards).flatMap
      (shardRows order numChunks batchSize shardSize))[0 * (numChunks * shardSize) + shardSize]? =
        (shardRows order numChunks batchSize shardSize 0)[shardSize]? := by
    refine getElem?_flatMap_range (fun i hi ↦ length_shardRows hbatch hlen hi) hshards ?_
    calc shardSize = 1 * shardSize := (Nat.one_mul _).symm
      _ < numChunks * shardSize := Nat.mul_lt_mul_of_pos_right hchunks hsize
  have hsecond : (shardRows order numChunks batchSize shardSize 0)[1 * shardSize + 0]? =
      ((order.drop (1 * batchSize + 0 * shardSize)).take shardSize)[0]? := by
    refine getElem?_flatMap_range (fun i hi ↦ ?_) hchunks hsize
    have hle : (i + 1) * batchSize ≤ numChunks * batchSize := Nat.mul_le_mul_right _ hi
    have hpart : shardSize ≤ batchSize := hbatch ▸ Nat.le_mul_of_pos_left _ hshards
    rw [Nat.succ_mul] at hle
    rw [List.length_take, List.length_drop]
    omega
  rw [Nat.zero_mul, Nat.zero_add] at hfirst
  rw [Nat.one_mul, Nat.add_zero, Nat.one_mul, Nat.zero_mul, Nat.add_zero,
    List.getElem?_take_of_lt hsize, List.getElem?_drop, Nat.add_zero] at hsecond
  exact hfirst.trans hsecond

theorem flatMap_shardRows_eq_iff (hnd : order.Nodup) (hbatch : batchSize = shards * shardSize)
    (hlen : order.length = numChunks * batchSize) (hshards : 0 < shards) (hsize : 0 < shardSize) :
    (List.range shards).flatMap (shardRows order numChunks batchSize shardSize) = order ↔
      shards = 1 ∨ numChunks ≤ 1 := by
  constructor
  · intro heq
    by_contra hnot
    obtain ⟨hone, hchunks⟩ := not_or.mp hnot
    have hplace := getElem?_flatMap_shardRows hbatch hlen hshards hsize (by omega)
    rw [heq] at hplace
    have hlt : batchSize < order.length := by
      have hle : 2 * batchSize ≤ numChunks * batchSize := Nat.mul_le_mul_right _ (by omega)
      have hpos : 0 < batchSize := hbatch ▸ Nat.mul_pos hshards hsize
      omega
    have hpart : shardSize ≤ batchSize := hbatch ▸ Nat.le_mul_of_pos_left _ hshards
    have hsame : shardSize = batchSize :=
      (List.getElem?_inj (hpart.trans_lt hlt) hnd).mp hplace
    refine hone (Nat.eq_of_mul_eq_mul_right hsize ?_)
    rw [Nat.one_mul, ← hbatch, hsame]
  · rintro (rfl | hchunks)
    · rw [Nat.one_mul] at hbatch
      rw [List.range_one, List.flatMap_singleton, shardRows]
      simp only [Nat.zero_mul, Nat.add_zero, ← hbatch]
      rw [flatMap_take_drop, ← hlen, List.take_length]
    · rcases Nat.le_one_iff_eq_zero_or_eq_one.mp hchunks with rfl | rfl
      · rw [Nat.zero_mul, List.length_eq_zero_iff] at hlen
        rw [hlen]
        exact List.flatMap_eq_nil_iff.mpr fun _ _ ↦ rfl
      · rw [Nat.one_mul] at hlen
        have hshard : ∀ shardIdx, shardRows order 1 batchSize shardSize shardIdx =
            (order.drop (shardIdx * shardSize)).take shardSize := by
          intro shardIdx
          rw [shardRows, List.range_one, List.flatMap_singleton, Nat.zero_mul, Nat.zero_add]
        rw [List.flatMap_congr fun shardIdx _ ↦ hshard shardIdx, flatMap_take_drop, ← hbatch, ← hlen,
          List.take_length]

theorem shardByBatchSize_dynamic {inputLengths : List ℕ} {inputSeqlen : ℕ}
    {batchSize : Option ℕ} {args : DynamicBatchingArgs} {sharded : List SlicedDataDict}
    (h : shardByBatchSize inputLengths inputSeqlen shards batchSize (some args) none =
      some sharded) :
    ∃ numChunks shardSize chunks,
      0 < shards ∧ 0 < shardSize ∧ 0 < args.sequenceLengthRound ∧
      batchSize.getD inputLengths.length = shards * shardSize ∧
      inputLengths.length = numChunks * (shards * shardSize) ∧
      let rows := (List.range shards).map (shardRows
        (dynamicSortedIndices inputLengths shards batchSize) numChunks (shards * shardSize) shardSize)
      (List.range numChunks).mapM
        (chunkMicroBatches args inputSeqlen inputLengths rows shardSize) = some chunks ∧
      sharded = rows.map fun rows ↦
        ⟨rows, some (chunks.map Prod.fst), some (chunks.map Prod.snd), none⟩ := by
  unfold shardByBatchSize at h
  simp only [Option.isSome_some, Option.isSome_none, Bool.false_eq_true, and_false, if_false] at h
  split_ifs at h with hbad hround
  obtain ⟨hb, hmod, hs, hdiv⟩ : batchSize.getD inputLengths.length ≠ 0 ∧
      inputLengths.length % batchSize.getD inputLengths.length = 0 ∧ shards ≠ 0 ∧
        batchSize.getD inputLengths.length % shards = 0 := by
    push Not at hbad
    exact hbad
  have hbatch : batchSize.getD inputLengths.length =
      shards * (batchSize.getD inputLengths.length / shards) :=
    (Nat.mul_div_cancel' (Nat.dvd_of_mod_eq_zero hdiv)).symm
  have hlen : inputLengths.length = inputLengths.length / batchSize.getD inputLengths.length *
      batchSize.getD inputLengths.length :=
    (Nat.div_mul_cancel (Nat.dvd_of_mod_eq_zero hmod)).symm
  have hsize : 0 < batchSize.getD inputLengths.length / shards :=
    Nat.div_pos (Nat.le_of_dvd (Nat.pos_of_ne_zero hb) (Nat.dvd_of_mod_eq_zero hdiv))
      (Nat.pos_of_ne_zero hs)
  obtain ⟨chunks, hchunks, hsharded⟩ := Option.map_eq_some_iff.mp h
  refine ⟨inputLengths.length / batchSize.getD inputLengths.length,
    batchSize.getD inputLengths.length / shards, chunks, Nat.pos_of_ne_zero hs, hsize,
    Nat.pos_of_ne_zero hround, hbatch, ?_, ?_, ?_⟩
  · rw [← hbatch]
    exact hlen
  · rw [← hbatch]
    exact hchunks
  · rw [← hbatch]
    exact hsharded.symm

/-- The shards of a dynamic batch hold it as the indices permute it exactly where
there is one shard or one chunk. -/
theorem dynamic_roundTrips_iff {inputLengths : List ℕ} {inputSeqlen : ℕ}
    {batchSize : Option ℕ} {args : DynamicBatchingArgs} {sharded : List SlicedDataDict}
    (h : shardByBatchSize inputLengths inputSeqlen shards batchSize (some args) none =
      some sharded) :
    RoundTrips sharded (dynamicSortedIndices inputLengths shards batchSize) inputLengths.length ↔
      shards = 1 ∨ inputLengths.length ≤ batchSize.getD inputLengths.length := by
  have hperm := shardByBatchSize_perm h
  obtain ⟨numChunks, shardSize, chunks, hshards, hsize, -, hbatch, hlen, -, hsharded⟩ :=
    shardByBatchSize_dynamic h
  have hpos : 0 < shards * shardSize := Nat.mul_pos hshards hsize
  have hchunks : inputLengths.length / (shards * shardSize) = numChunks := by
    rw [hlen]
    exact Nat.mul_div_cancel _ hpos
  have horder : (dynamicSortedIndices inputLengths shards batchSize).Perm
      (List.range inputLengths.length) := by
    rw [dynamicSortedIndices, hbatch, hchunks, hlen]
    exact batchSortedIndices_perm inputLengths numChunks (shards * shardSize) hshards
  have hrows : sharded.flatMap SlicedDataDict.rows = (List.range shards).flatMap (shardRows
      (dynamicSortedIndices inputLengths shards batchSize) numChunks (shards * shardSize)
        shardSize) := by
    rw [hsharded, List.flatMap_map, List.flatMap_map]
  have horderlen : (dynamicSortedIndices inputLengths shards batchSize).length =
      numChunks * (shards * shardSize) := by
    rw [horder.length_eq, List.length_range]
    exact hlen
  have hone : inputLengths.length ≤ batchSize.getD inputLengths.length ↔ numChunks ≤ 1 := by
    rw [hbatch]
    constructor
    · intro hle
      refine Nat.le_of_mul_le_mul_right ?_ hpos
      rw [Nat.one_mul, ← hlen]
      exact hle
    · intro hle
      calc inputLengths.length = numChunks * (shards * shardSize) := hlen
        _ ≤ 1 * (shards * shardSize) := Nat.mul_le_mul_right _ hle
        _ = shards * shardSize := Nat.one_mul _
  rw [roundTrips_iff_rows hperm horder, hrows, hone]
  exact flatMap_shardRows_eq_iff (horder.nodup_iff.mpr List.nodup_range) rfl horderlen hshards hsize

def fourRows : DynamicBatchingArgs := ⟨8, 1⟩

def fourRowShards : List SlicedDataDict :=
  [⟨[0, 2], some [[(0, 1)], [(0, 1)]], some [[2], [4]], none⟩,
    ⟨[1, 3], some [[(0, 1)], [(0, 1)]], some [[2], [4]], none⟩]

theorem shardByBatchSize_fourRows :
    shardByBatchSize [1, 2, 3, 4] 4 2 (some 2) (some fourRows) none = some fourRowShards := by
  decide

/-- Two chunks on two shards: the shards hold rows 0, 2, 1, 3, the indices are 0, 1, 2, 3. -/
theorem fourRows_not_roundTrips :
    shardByBatchSize [1, 2, 3, 4] 4 2 (some 2) (some fourRows) none = some fourRowShards ∧
      dynamicSortedIndices [1, 2, 3, 4] 2 (some 2) = [0, 1, 2, 3] ∧
      reorderData (gathered fourRowShards [10, 20, 30, 40]) [0, 1, 2, 3] = [10, 30, 20, 40] ∧
      ¬ RoundTrips fourRowShards (dynamicSortedIndices [1, 2, 3, 4] 2 (some 2)) 4 := by
  have hindices : dynamicSortedIndices [1, 2, 3, 4] 2 (some 2) = [0, 1, 2, 3] := by decide
  have hreordered : reorderData (gathered fourRowShards [10, 20, 30, 40]) [0, 1, 2, 3] =
      [10, 30, 20, 40] := by
    decide
  refine ⟨shardByBatchSize_fourRows, hindices, hreordered, fun hround ↦ ?_⟩
  have hback := (hround ℕ [10, 20, 30, 40] rfl).2
  rw [hindices, hreordered] at hback
  exact absurd hback (by decide)

theorem dynamic_roundTrips_iff_fourRows :
    RoundTrips fourRowShards (dynamicSortedIndices [1, 2, 3, 4] 2 (some 2)) 4 ↔
      2 = 1 ∨ 4 ≤ (some 2).getD 4 :=
  dynamic_roundTrips_iff shardByBatchSize_fourRows

end Dynamic

end NemoRL.Distributed.BatchedDataDict
