import Mathlib
import NemoRL.Distributed.PackedShards

namespace NemoRL.DataPlane.Preshard

open Foundations.Positions Foundations.Blocks Distributed.BatchedDataDict Data.Packing

/-- Where a row is dealt to: its rank, and among the rows of the rank its chunk and its place
in the chunk. -/
structure Dealt where
  rank : ℕ
  chunk : ℕ
  place : ℕ

def Dealt.Before (a b : Dealt) : Prop :=
  a.rank < b.rank ∨ a.rank = b.rank ∧
    (a.chunk < b.chunk ∨ a.chunk = b.chunk ∧ a.place < b.place)

instance : DecidableRel Dealt.Before := fun _ _ ↦ inferInstanceAs (Decidable (_ ∨ _ ∧ (_ ∨ _ ∧ _)))

theorem Dealt.Before.asymm {a b : Dealt} (h : a.Before b) : ¬ b.Before a := by
  unfold Dealt.Before at *
  omega

/-- How many of `n` rows are dealt before a row. -/
def placeOf (deal : ℕ → Dealt) (n row : ℕ) : ℕ :=
  (List.range n).countP fun other ↦ (deal other).Before (deal row)

section Places

theorem placeOf_eq {deal : ℕ → Dealt} {flat : List ℕ} {n row : ℕ}
    (hperm : flat.Perm (List.range n))
    (h : flat.Pairwise fun a b ↦ (deal a).Before (deal b)) (hrow : row < n) :
    placeOf deal n row = flat.idxOf row := by
  rw [placeOf, ← hperm.countP_eq]
  exact countP_eq_idxOf (R := fun a b ↦ (deal a).Before (deal b)) (fun _ _ h ↦ h.asymm) h
    (hperm.mem_iff.mpr (List.mem_range.mpr hrow))

theorem pairwise_before {deal : ℕ → Dealt} {part : ℕ → ℕ → List ℕ} {ranks chunks : ℕ}
    (hpart : ∀ s < ranks, ∀ c < chunks, (∀ row ∈ part s c, (deal row).rank = s ∧
      (deal row).chunk = c) ∧ (part s c).Pairwise fun a b ↦ (deal a).place < (deal b).place) :
    ((List.range ranks).flatMap fun s ↦ (List.range chunks).flatMap (part s)).Pairwise
      fun a b ↦ (deal a).Before (deal b) := by
  refine List.pairwise_flatMap.mpr ⟨fun s hs ↦ List.pairwise_flatMap.mpr ⟨fun c hc ↦ ?_, ?_⟩, ?_⟩
  · obtain ⟨hdealt, hplaces⟩ := hpart s (List.mem_range.mp hs) c (List.mem_range.mp hc)
    refine hplaces.imp_of_mem fun {a b} ha hb hlt ↦ ?_
    obtain ⟨hra, hca⟩ := hdealt a ha
    obtain ⟨hrb, hcb⟩ := hdealt b hb
    exact .inr ⟨hra.trans hrb.symm, .inr ⟨hca.trans hcb.symm, hlt⟩⟩
  · refine List.pairwise_lt_range.imp_of_mem fun {c c'} hc hc' hlt a ha b hb ↦ ?_
    obtain ⟨hra, hca⟩ := (hpart s (List.mem_range.mp hs) c (List.mem_range.mp hc)).1 a ha
    obtain ⟨hrb, hcb⟩ := (hpart s (List.mem_range.mp hs) c' (List.mem_range.mp hc')).1 b hb
    exact .inr ⟨hra.trans hrb.symm, .inl (by rw [hca, hcb]; exact hlt)⟩
  · refine List.pairwise_lt_range.imp_of_mem fun {s s'} hs hs' hlt a ha b hb ↦ ?_
    obtain ⟨c, hc, ha⟩ := List.mem_flatMap.mp ha
    obtain ⟨c', hc', hb⟩ := List.mem_flatMap.mp hb
    have hra := ((hpart s (List.mem_range.mp hs) c (List.mem_range.mp hc)).1 a ha).1
    have hrb := ((hpart s' (List.mem_range.mp hs') c' (List.mem_range.mp hc')).1 b hb).1
    exact .inl (by rw [hra, hrb]; exact hlt)

end Places

section Sorted

/-- How many entries are smaller, or as large and earlier. -/
def lengthRank (lengths : List ℕ) (i : ℕ) : ℕ :=
  (List.range lengths.length).countP fun j ↦ lengths.getD j 0 < lengths.getD i 0 ∨
    lengths.getD j 0 = lengths.getD i 0 ∧ j < i

theorem lengthRank_sorted {lengths : List ℕ} {k i : ℕ}
    (h : ((List.range lengths.length).insertionSort
      fun i j ↦ lengths.getD i 0 ≤ lengths.getD j 0)[k]? = some i) : lengthRank lengths i = k := by
  have hlex := insertionSort_lex (lengths.getD · 0) (List.pairwise_lt_range (n := lengths.length))
  set sorted := (List.range lengths.length).insertionSort
    fun i j ↦ lengths.getD i 0 ≤ lengths.getD j 0 with hsorted
  have hperm : sorted.Perm (List.range lengths.length) := List.perm_insertionSort _ _
  have hnd : sorted.Nodup := hperm.nodup_iff.mpr List.nodup_range
  rw [lengthRank, ← hperm.countP_eq]
  refine (countP_eq_idxOf (R := fun i j ↦ lengths.getD i 0 < lengths.getD j 0 ∨
    lengths.getD i 0 = lengths.getD j 0 ∧ i < j) (fun a b ↦ by omega) hlex
    (List.mem_of_getElem? h)).trans ?_
  obtain ⟨hk, rfl⟩ := List.getElem?_eq_some_iff.mp h
  exact hnd.idxOf_getElem k hk

end Sorted

section Dynamic

variable {seqLens : List ℕ} {numChunks dpWorld shardSize : ℕ}

/-- The row of a rank in its chunk by length goes to the rank that is left over. -/
def dynamicDeal (seqLens : List ℕ) (dpWorld batchSize row : ℕ) : Dealt :=
  let chunk := row / batchSize
  let k := lengthRank ((seqLens.drop (chunk * batchSize)).take batchSize) (row % batchSize)
  ⟨k % dpWorld, chunk, k⟩

def sortedChunk (seqLens : List ℕ) (batchSize chunk : ℕ) : List ℕ :=
  (List.range batchSize).insertionSort fun i j ↦
    ((seqLens.drop (chunk * batchSize)).take batchSize).getD i 0 ≤
      ((seqLens.drop (chunk * batchSize)).take batchSize).getD j 0

theorem dynamicDeal_sorted {c k i batchSize : ℕ} (hlen : seqLens.length = numChunks * batchSize)
    (hc : c < numChunks) (h : (sortedChunk seqLens batchSize c)[k]? = some i) :
    dynamicDeal seqLens dpWorld batchSize (i + c * batchSize) = ⟨k % dpWorld, c, k⟩ := by
  have hi : i < batchSize := by
    have hmem := List.mem_of_getElem? h
    exact List.mem_range.mp ((List.perm_insertionSort _ _).mem_iff.mp hmem)
  have hchunk : (i + c * batchSize) / batchSize = c := by
    rw [Nat.add_mul_div_right _ _ (by omega), Nat.div_eq_of_lt hi, Nat.zero_add]
  have hrest : (i + c * batchSize) % batchSize = i := by
    rw [Nat.add_mul_mod_self_right, Nat.mod_eq_of_lt hi]
  have hsize : ((seqLens.drop (c * batchSize)).take batchSize).length = batchSize := by
    have hle : (c + 1) * batchSize ≤ numChunks * batchSize := Nat.mul_le_mul_right _ hc
    rw [Nat.succ_mul] at hle
    rw [List.length_take, List.length_drop]
    omega
  have hrank : lengthRank ((seqLens.drop (c * batchSize)).take batchSize) i = k := by
    refine lengthRank_sorted ?_
    rw [hsize]
    exact h
  simp only [dynamicDeal, hchunk, hrest, hrank]

theorem dynamic_pairwise (hshards : 0 < dpWorld)
    (hlen : seqLens.length = numChunks * (dpWorld * shardSize)) :
    ((List.range dpWorld).flatMap (shardRows (batchSortedIndices seqLens numChunks
      (dpWorld * shardSize) dpWorld) numChunks (dpWorld * shardSize) shardSize)).Pairwise
      fun a b ↦ (dynamicDeal seqLens dpWorld (dpWorld * shardSize) a).Before
        (dynamicDeal seqLens dpWorld (dpWorld * shardSize) b) := by
  set batchSize := dpWorld * shardSize with hbatch
  set rows : ℕ → List ℕ := fun c ↦ (sortedChunk seqLens batchSize c).map (· + c * batchSize)
  have hrows : ∀ c, (rows c).length = batchSize := fun c ↦ by
    rw [List.length_map, sortedChunk, List.length_insertionSort, List.length_range]
  have hstripe : ∀ c, ∀ s < dpWorld, (stripe (rows c) s dpWorld).length = shardSize := by
    intro c s hs
    rw [length_stripe hs (by rw [hrows, hbatch]; exact Nat.dvd_mul_right ..), hrows, hbatch,
      Nat.mul_div_cancel_left _ hshards]
  have hshardRows : ∀ s < dpWorld, shardRows (batchSortedIndices seqLens numChunks batchSize
      dpWorld) numChunks batchSize shardSize s =
        (List.range numChunks).flatMap fun c ↦ stripe (rows c) s dpWorld := by
    intro s hs
    refine List.flatMap_congr fun c hc ↦ ?_
    have hall : ∀ c < numChunks, ((List.range dpWorld).flatMap
        fun s ↦ stripe (rows c) s dpWorld).length = dpWorld * shardSize := fun c _ ↦
      length_flatMap_range (hstripe c)
    have hblock := (block_flatMap hall (List.mem_range.mp hc) hs).trans
      (block_flatMap_self (hstripe c) hs)
    rw [← hblock, block_eq, hbatch]
    congr 2
    ring
  rw [List.flatMap_congr fun s hs ↦ hshardRows s (List.mem_range.mp hs)]
  refine pairwise_before fun s hs c hc ↦ ?_
  have hentry : ∀ x ∈ (rows c).zipIdx.filter (fun x ↦ x.2 % dpWorld = s),
      dynamicDeal seqLens dpWorld batchSize x.1 = ⟨s, c, x.2⟩ := by
    intro x hx
    obtain ⟨hmem, hstep⟩ := List.mem_filter.mp hx
    have hget := List.mem_zipIdx_iff_getElem?.mp hmem
    rw [List.getElem?_map] at hget
    obtain ⟨i, hi, hx⟩ := Option.map_eq_some_iff.mp hget
    rw [← hx, dynamicDeal_sorted hlen hc hi, of_decide_eq_true hstep]
  constructor
  · intro row hrow
    obtain ⟨x, hx, rfl⟩ := List.mem_map.mp hrow
    rw [hentry x hx]
    exact ⟨rfl, rfl⟩
  · rw [stripe, List.pairwise_map]
    have hplaces : ((rows c).zipIdx.filter fun x ↦ x.2 % dpWorld = s).Pairwise
        fun x y ↦ x.2 < y.2 := by
      refine List.Pairwise.filter _ ?_
      rw [← List.pairwise_map (f := Prod.snd) (R := (· < ·)), List.zipIdx_map_snd,
        ← List.range_eq_range']
      exact List.pairwise_lt_range
    refine hplaces.imp_of_mem fun {x y} hx hy hlt ↦ ?_
    rw [hentry x hx, hentry y hy]
    exact hlt

end Dynamic

section Packed

variable {args : SequencePackingArgs} {seqLens : List ℕ} {numChunks dpWorld batchSize : ℕ}
  {bins : ℕ → List (List ℕ)}

def packBins (args : SequencePackingArgs) (seqLens : List ℕ) (dpWorld batchSize chunk : ℕ) :
    List (List ℕ) :=
  match SequencePacker.create args.maxTokensPerMicrobatch (some (dpWorld : ℤ))
      (some (dpWorld : ℤ)) with
  | .error _ => []
  | .ok packer => ((packer.pack (args.algorithm chunk)
      ((chunkPaddedSeqlens args seqLens batchSize chunk).map Int.ofNat)).toOption).getD []

def rankRows (args : SequencePackingArgs) (seqLens : List ℕ) (dpWorld batchSize : ℕ)
    (bins : ℕ → List (List ℕ)) (rank chunk : ℕ) : List ℕ :=
  (shardBinAssignments args (chunkPaddedSeqlens args seqLens batchSize chunk) (bins chunk)
    dpWorld rank).flatten

/-- The bins of a chunk go to the ranks in turn. -/
def packedDeal (args : SequencePackingArgs) (seqLens : List ℕ) (dpWorld batchSize : ℕ)
    (bins : ℕ → List (List ℕ)) (row : ℕ) : Dealt :=
  let chunk := row / batchSize
  let rank := (bins chunk).findIdx (row % batchSize ∈ ·) % dpWorld
  ⟨rank, chunk,
    (rankRows args seqLens dpWorld batchSize bins rank chunk).idxOf (row % batchSize)⟩

theorem packed_pairwise (hbatch : 0 < batchSize)
    (hbins : ∀ c < numChunks, (bins c).flatten.Perm (List.range batchSize)) :
    ((List.range dpWorld).flatMap fun s ↦ (List.range numChunks).flatMap fun c ↦
      (rankRows args seqLens dpWorld batchSize bins s c).map (· + c * batchSize)).Pairwise
      fun a b ↦ (packedDeal args seqLens dpWorld batchSize bins a).Before
        (packedDeal args seqLens dpWorld batchSize bins b) := by
  refine pairwise_before fun s hs c hc ↦ ?_
  have hperm := hbins c hc
  have hnd : (bins c).flatten.Nodup := hperm.nodup_iff.mpr List.nodup_range
  have hown : (shardBinAssignments args (chunkPaddedSeqlens args seqLens batchSize c) (bins c)
      dpWorld s).Perm (stripe (bins c) s dpWorld) := by
    unfold shardBinAssignments
    split_ifs
    · exact List.perm_insertionSort _ _
    · exact .refl _
  have hrank : ∀ i ∈ rankRows args seqLens dpWorld batchSize bins s c,
      i < batchSize ∧ (bins c).findIdx (i ∈ ·) % dpWorld = s := by
    intro i hi
    rw [rankRows] at hi
    obtain ⟨bin, hbin, hi⟩ := List.mem_flatten.mp hi
    obtain ⟨x, hx, rfl⟩ := List.mem_map.mp (hown.mem_iff.mp hbin)
    obtain ⟨hmem, hstep⟩ := List.mem_filter.mp hx
    have hplace := List.mem_zipIdx_iff_getElem?.mp hmem
    refine ⟨List.mem_range.mp (hperm.mem_iff.mp ?_), ?_⟩
    · exact List.mem_flatten.mpr ⟨x.1, List.mem_of_getElem? hplace, hi⟩
    · rw [findIdx_of_nodup hnd hplace hi]
      exact of_decide_eq_true hstep
  have hrowsnd : (rankRows args seqLens dpWorld batchSize bins s c).Nodup := by
    rw [rankRows]
    have hsub : (stripe (bins c) s dpWorld).Sublist (bins c) := by
      have hzip := (List.filter_sublist (l := (bins c).zipIdx)
        (p := fun x ↦ decide (x.2 % dpWorld = s))).map Prod.fst
      rwa [List.zipIdx_map_fst] at hzip
    exact hown.flatten.nodup_iff.mpr (hsub.flatten.nodup hnd)
  have hdeal : ∀ i ∈ rankRows args seqLens dpWorld batchSize bins s c,
      packedDeal args seqLens dpWorld batchSize bins (i + c * batchSize) =
        ⟨s, c, (rankRows args seqLens dpWorld batchSize bins s c).idxOf i⟩ := by
    intro i hi
    obtain ⟨hlt, hfind⟩ := hrank i hi
    have hchunk : (i + c * batchSize) / batchSize = c := by
      rw [Nat.add_mul_div_right _ _ hbatch, Nat.div_eq_of_lt hlt, Nat.zero_add]
    have hrest : (i + c * batchSize) % batchSize = i := by
      rw [Nat.add_mul_mod_self_right, Nat.mod_eq_of_lt hlt]
    simp only [packedDeal, hchunk, hrest, hfind]
  constructor
  · intro row hrow
    obtain ⟨i, hi, rfl⟩ := List.mem_map.mp hrow
    rw [hdeal i hi]
    exact ⟨rfl, rfl⟩
  · rw [List.pairwise_map]
    refine List.pairwise_iff_getElem.mpr fun j k hj hk hjk ↦ ?_
    rw [hdeal _ (List.getElem_mem hj), hdeal _ (List.getElem_mem hk)]
    simp only [hrowsnd.idxOf_getElem]
    exact hjk

end Packed

end NemoRL.DataPlane.Preshard
