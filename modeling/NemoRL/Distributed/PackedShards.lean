import Mathlib
import NemoRL.Distributed.ShardOrder
import NemoRL.Foundations.Tilings

namespace NemoRL.Distributed.BatchedDataDict

open Foundations.Positions Foundations.Blocks Foundations.Ragged Foundations.Tilings Data.Packing

section GetBatch

/-- A slice of the rows, which asserts that there are so many. -/
def sliceRows (rows : List ℕ) (start stop : ℕ) : Option (List ℕ) :=
  if stop ≤ rows.length then some (slice rows start stop) else none

def SlicedDataDict.getBatch (shard : SlicedDataDict) (batchIdx : ℕ) (batchSize : Option ℕ) :
    Option SlicedDataDict := do
  let microBatchIndices ← shard.microBatchIndices.mapM fun indices ↦
    indices[batchIdx]?.map fun chunk ↦ [chunk]
  let microBatchLengths ← shard.microBatchLengths.mapM fun lengths ↦
    lengths[batchIdx]?.map fun chunk ↦ [chunk]
  match shard.elemCountsPerGb with
  | some counts => do
    let elemCount ← counts[batchIdx]?
    let rows ← sliceRows shard.rows (offset counts batchIdx) (offset counts (batchIdx + 1))
    if microBatchIndices.isSome then
      some ⟨rows, microBatchIndices, microBatchLengths, some [elemCount]⟩
    else none
  | none => do
    let batchSize ← batchSize
    let rows ← sliceRows shard.rows (batchSize * batchIdx) (batchSize * (batchIdx + 1))
    return ⟨rows, microBatchIndices, microBatchLengths, none⟩

end GetBatch

section Ranges

variable {start : ℕ} {bins : List (List ℕ)}

theorem length_binRanges (start : ℕ) (bins : List (List ℕ)) :
    (binRanges start bins).length = bins.length := by
  induction bins generalizing start with
  | nil => rfl
  | cons bin bins ih => rw [binRanges, List.length_cons, List.length_cons, ih]

theorem binRanges_tiles (hne : ∀ bin ∈ bins, bin ≠ []) :
    Tiles start (binRanges start bins) (start + bins.flatten.length) := by
  induction bins generalizing start with
  | nil => rfl
  | cons bin bins ih =>
    obtain ⟨hbin, hrest⟩ := List.forall_mem_cons.mp hne
    have hpos := List.length_pos_of_ne_nil hbin
    refine ⟨rfl, by omega, ?_⟩
    rw [List.flatten_cons, List.length_append, ← Nat.add_assoc]
    exact ih hrest

theorem getLast?_binRanges (start : ℕ) (hbins : bins ≠ []) :
    (binRanges start bins).getLast?.map Prod.snd = some (start + bins.flatten.length) := by
  induction bins generalizing start with
  | nil => exact absurd rfl hbins
  | cons bin bins ih =>
    cases bins with
    | nil =>
      rw [binRanges, binRanges, List.flatten_singleton]
      rfl
    | cons next bins =>
      rw [List.flatten_cons, List.length_append, ← Nat.add_assoc,
        ← ih (start + bin.length) (List.cons_ne_nil next bins), binRanges, binRanges, List.getLast?_cons_cons]

theorem getElem?_binRanges {k : ℕ} {bin : List ℕ} (h : bins[k]? = some bin) :
    (binRanges start bins)[k]? = some (start + offset (bins.map List.length) k,
      start + offset (bins.map List.length) (k + 1)) := by
  induction bins generalizing start k with
  | nil => cases h
  | cons first bins ih =>
    cases k with
    | zero => rfl
    | succ k =>
      have hoffset : ∀ k, offset ((first :: bins).map List.length) (k + 1) =
          first.length + offset (bins.map List.length) k := by
        intro k
        rw [offset, List.map_cons, List.take_succ_cons, List.sum_cons, offset]
      rw [binRanges, List.getElem?_cons_succ, ih h, hoffset, hoffset, Nat.add_assoc, Nat.add_assoc]

end Ranges

section Stripes

variable {α : Type}

theorem length_stripe {l : List α} {w i : ℕ} (hi : i < w) (hdvd : w ∣ l.length) :
    (stripe l i w).length = l.length / w := by
  have hw : 0 < w := by omega
  have hcount : (stripe l i w).length = l.length.count (· ≡ i [MOD w]) := by
    rw [stripe, List.length_map, ← List.countP_eq_length_filter, Nat.count_eq_card_filter_range]
    have hsnd : l.zipIdx.countP (fun x ↦ x.2 % w = i) =
        (List.range l.length).countP fun k ↦ k % w = i := by
      have hmap : l.zipIdx.map Prod.snd = List.range l.length := by
        rw [List.zipIdx_map_snd, List.range_eq_range']
      rw [← hmap, List.countP_map]
      rfl
    rw [hsnd, List.countP_eq_length_filter]
    have hmod : ∀ k, k % w = i ↔ k ≡ i [MOD w] := by
      intro k
      rw [Nat.ModEq, Nat.mod_eq_of_lt hi]
    simp only [hmod]
    rfl
  rw [hcount, Nat.count_modEq_card _ hw, Nat.mod_eq_zero_of_dvd hdvd, if_neg (Nat.not_lt_zero _),
    Nat.add_zero]

theorem mem_of_mem_stripe {l : List α} {w i : ℕ} {a : α} (h : a ∈ stripe l i w) : a ∈ l := by
  obtain ⟨x, hx, rfl⟩ := List.mem_map.mp h
  exact List.mem_of_getElem? (List.mem_zipIdx_iff_getElem?.mp (List.mem_of_mem_filter hx))

theorem filter_flatten (key : α → ℕ) {parts : List (List α)}
    (h : ∀ j part, parts[j]? = some part → ∀ a ∈ part, key a = j) {i : ℕ} {part : List α}
    (hpart : parts[i]? = some part) : parts.flatten.filter (key · = i) = part := by
  induction parts using List.reverseRecOn with
  | nil => cases hpart
  | append_singleton parts last ih =>
    have hlast : ∀ a ∈ last, key a = parts.length := by
      refine h parts.length last ?_
      rw [List.getElem?_append_right le_rfl, Nat.sub_self]
      rfl
    have hinit : ∀ j part, parts[j]? = some part → ∀ a ∈ part, key a = j := by
      intro j part hj
      refine h j part ?_
      rw [List.getElem?_append_left (List.getElem?_eq_some_iff.mp hj).1]
      exact hj
    rw [List.flatten_append, List.flatten_singleton, List.filter_append]
    rcases Nat.lt_or_ge i parts.length with hi | hi
    · rw [List.getElem?_append_left hi] at hpart
      rw [ih hinit hpart, List.filter_eq_nil_iff.mpr, List.append_nil]
      intro a ha hkey
      have hsame := (hlast a ha).symm.trans (of_decide_eq_true hkey)
      omega
    · have hsome := (List.getElem?_eq_some_iff.mp hpart).1
      rw [List.length_append, List.length_singleton] at hsome
      obtain rfl : i = parts.length := by omega
      rw [List.getElem?_append_right le_rfl, Nat.sub_self] at hpart
      obtain rfl := Option.some.inj hpart
      have hnone : parts.flatten.filter (key · = parts.length) = [] := by
        refine List.filter_eq_nil_iff.mpr fun a ha hkey ↦ ?_
        obtain ⟨part, hmem, ha⟩ := List.mem_flatten.mp ha
        obtain ⟨j, hj⟩ := List.mem_iff_getElem?.mp hmem
        have hlt := (List.getElem?_eq_some_iff.mp hj).1
        have hsame := (hinit j part hj a ha).symm.trans (of_decide_eq_true hkey)
        omega
      rw [hnone, List.nil_append]
      exact List.filter_eq_self.mpr fun a ha ↦ decide_eq_true (hlast a ha)

end Stripes

section Shard

variable {args : SequencePackingArgs} {packer : SequencePacker} {inputLengths : List ℕ}
  {numChunks batchSize shards shardIdx : ℕ} {assignments : List (List (List ℕ))}

variable (args inputLengths batchSize shards shardIdx) in
/-- The bins that a shard works off of a chunk with these bins. -/
def chunkBins (x : List (List ℕ) × ℕ) : List (List ℕ) :=
  shardBinAssignments args (chunkPaddedSeqlens args inputLengths batchSize x.2) x.1 shards shardIdx

variable (args inputLengths batchSize shards shardIdx) in
def chunkRows (x : List (List ℕ) × ℕ) : List ℕ :=
  (chunkBins args inputLengths batchSize shards shardIdx x).flatMap
    fun bin ↦ bin.map (· + x.2 * batchSize)

theorem length_chunkRows (x : List (List ℕ) × ℕ) :
    (chunkRows args inputLengths batchSize shards shardIdx x).length =
      (chunkBins args inputLengths batchSize shards shardIdx x).flatten.length := by
  rw [chunkRows, List.length_flatMap, List.length_flatten]
  simp only [List.length_map]

theorem chunkBins_perm (x : List (List ℕ) × ℕ) :
    (chunkBins args inputLengths batchSize shards shardIdx x).Perm (stripe x.1 shardIdx shards) := by
  rw [chunkBins, shardBinAssignments]
  split_ifs
  · exact List.perm_insertionSort _ _
  · exact .refl _

theorem mem_of_mem_chunkBins {x : List (List ℕ) × ℕ} {bin : List ℕ}
    (h : bin ∈ chunkBins args inputLengths batchSize shards shardIdx x) : bin ∈ x.1 :=
  mem_of_mem_stripe ((chunkBins_perm x).mem_iff.mp h)

/-- The bins of every chunk are legal, and as many as the shards can share out. -/
structure LegalAssignments (args : SequencePackingArgs) (packer : SequencePacker)
    (inputLengths : List ℕ) (numChunks batchSize shards : ℕ)
    (assignments : List (List (List ℕ))) : Prop where
  batchSize_pos : 0 < batchSize
  rows : inputLengths.length = numChunks * batchSize
  count : assignments.length = numChunks
  legal : ∀ chunkIdx bins, assignments[chunkIdx]? = some bins →
    packer.LegalPacking ((chunkPaddedSeqlens args inputLengths batchSize chunkIdx).map Int.ofNat) bins
  minBinCount : packer.minBinCount = some shards
  binCountMultiple : packer.binCountMultiple = some shards
  shards_pos : 0 < shards

namespace LegalAssignments

variable (h : LegalAssignments args packer inputLengths numChunks batchSize shards assignments)
  {x : List (List ℕ) × ℕ} (hx : x ∈ assignments.zipIdx)

include h hx

theorem chunk_lt : x.2 < numChunks := by
  have hlt := (List.getElem?_eq_some_iff.mp (List.mem_zipIdx_iff_getElem?.mp hx)).1
  rw [h.count] at hlt
  exact hlt

theorem legalPacking : packer.LegalPacking
    ((chunkPaddedSeqlens args inputLengths batchSize x.2).map Int.ofNat) x.1 :=
  h.legal x.2 x.1 (List.mem_zipIdx_iff_getElem?.mp hx)

theorem length_chunkBins (hshard : shardIdx < shards) :
    (chunkBins args inputLengths batchSize shards shardIdx x).length = x.1.length / shards ∧
      0 < x.1.length / shards := by
  have hlegal := h.legalPacking hx
  have hmin := hlegal.minBinCount shards h.minBinCount
  have hdvd := hlegal.binCountMultiple shards h.binCountMultiple
  rw [(chunkBins_perm x).length_eq, length_stripe hshard hdvd]
  exact ⟨rfl, Nat.div_pos hmin h.shards_pos⟩

theorem chunkBins_ne_nil (hshard : shardIdx < shards) :
    chunkBins args inputLengths batchSize shards shardIdx x ≠ [] := by
  obtain ⟨hlen, hpos⟩ := h.length_chunkBins hx hshard
  exact List.ne_nil_of_length_pos (hlen.symm ▸ hpos)

theorem bin_ne_nil : ∀ bin ∈ chunkBins args inputLengths batchSize shards shardIdx x, bin ≠ [] :=
  fun bin hbin ↦ (h.legalPacking hx).nonempty bin (mem_of_mem_chunkBins hbin)

theorem div_chunkRows : ∀ r ∈ chunkRows args inputLengths batchSize shards shardIdx x,
    r / batchSize = x.2 := by
  intro r hr
  obtain ⟨bin, hbin, hmem⟩ := List.mem_flatMap.mp hr
  obtain ⟨i, hi, rfl⟩ := List.mem_map.mp hmem
  have honce := (h.legalPacking hx).once.mem_iff.mp
    (List.mem_flatten.mpr ⟨bin, mem_of_mem_chunkBins hbin, hi⟩)
  rw [List.length_map, length_chunkPaddedSeqlens args (h.chunk_lt hx) h.rows] at honce
  rw [Nat.add_mul_div_right _ _ h.batchSize_pos, Nat.div_eq_of_lt (List.mem_range.mp honce),
    Nat.zero_add]

end LegalAssignments

theorem LegalAssignments.div_of_part
    (h : LegalAssignments args packer inputLengths numChunks batchSize shards assignments)
    (j : ℕ) (part : List ℕ) (hpart : (assignments.zipIdx.map
      (chunkRows args inputLengths batchSize shards shardIdx))[j]? = some part) :
    ∀ r ∈ part, r / batchSize = j := by
  intro r hr
  rw [List.getElem?_map] at hpart
  obtain ⟨x, hx, rfl⟩ := Option.map_eq_some_iff.mp hpart
  rw [h.div_chunkRows (List.mem_of_getElem? hx) r hr]
  rw [List.getElem?_zipIdx] at hx
  obtain ⟨bins, -, rfl⟩ := Option.map_eq_some_iff.mp hx
  exact Nat.zero_add j

theorem LegalAssignments.packedShard_eq
    (h : LegalAssignments args packer inputLengths numChunks batchSize shards assignments)
    (hshard : shardIdx < shards) :
    packedShard args inputLengths batchSize shards assignments shardIdx = some
      ⟨(assignments.zipIdx.map (chunkRows args inputLengths batchSize shards shardIdx)).flatten,
        some (assignments.zipIdx.map fun x ↦
          binRanges 0 (chunkBins args inputLengths batchSize shards shardIdx x)),
        some (assignments.zipIdx.map fun x ↦
          (chunkBins args inputLengths batchSize shards shardIdx x).map
            (binSeqlen (chunkPaddedSeqlens args inputLengths batchSize x.2))),
        some (assignments.zipIdx.map fun x ↦
          (chunkRows args inputLengths batchSize shards shardIdx x).length)⟩ := by
  have hcounts : (binsOfShard args inputLengths batchSize shards assignments shardIdx).mapM
      (fun x ↦ (binRanges 0 x.1).getLast?.map Prod.snd) =
        some (assignments.zipIdx.map fun x ↦
          (chunkRows args inputLengths batchSize shards shardIdx x).length) := by
    have hall := mapM_some (f := fun x : List (List ℕ) × List ℕ × ℕ ↦
      (binRanges 0 x.1).getLast?.map Prod.snd) (g := fun x ↦ x.1.flatten.length)
      (l := binsOfShard args inputLengths batchSize shards assignments shardIdx) ?_
    · rw [hall, binsOfShard, List.map_map]
      refine congrArg some (List.map_congr_left fun x _ ↦ ?_)
      exact (length_chunkRows x).symm
    · intro y hy
      obtain ⟨x, hx, rfl⟩ := List.mem_map.mp hy
      have hlast := getLast?_binRanges 0 (h.chunkBins_ne_nil hx hshard)
      rw [Nat.zero_add] at hlast
      exact hlast
  rw [packedShard, hcounts]
  simp only [binsOfShard, List.map_map, List.flatMap_def]
  rfl

theorem LegalAssignments.getBatch_eq
    (h : LegalAssignments args packer inputLengths numChunks batchSize shards assignments)
    (hshard : shardIdx < shards) {shard : SlicedDataDict}
    (heq : packedShard args inputLengths batchSize shards assignments shardIdx = some shard)
    {i : ℕ} (hi : i < numChunks) :
    shard.getBatch i none = some ⟨shard.rows.filter (· / batchSize = i),
      shard.microBatchIndices.map fun indices ↦ [indices.getD i []],
      shard.microBatchLengths.map fun lengths ↦ [lengths.getD i []],
      shard.elemCountsPerGb.map fun counts ↦ [counts.getD i 0]⟩ := by
  rw [h.packedShard_eq hshard] at heq
  obtain rfl := Option.some.inj heq
  set parts := assignments.zipIdx.map (chunkRows args inputLengths batchSize shards shardIdx)
    with hparts
  have hlt : i < assignments.zipIdx.length := by rw [List.length_zipIdx, h.count]; exact hi
  have hx : assignments.zipIdx[i]? = some assignments.zipIdx[i] := List.getElem?_eq_getElem hlt
  have hcounts : (assignments.zipIdx.map fun x ↦
      (chunkRows args inputLengths batchSize shards shardIdx x).length) =
        parts.map List.length := by
    rw [hparts, List.map_map]
    rfl
  have hpart : parts[i]? =
      some (chunkRows args inputLengths batchSize shards shardIdx assignments.zipIdx[i]) := by
    rw [hparts, List.getElem?_map, hx]
    rfl
  have hrows : sliceRows parts.flatten (offset (parts.map List.length) i)
      (offset (parts.map List.length) (i + 1)) =
        some (parts.flatten.filter (· / batchSize = i)) := by
    have htotal := offset_le_sum (parts.map List.length) (i + 1)
    rw [← List.length_flatten] at htotal
    rw [sliceRows, if_pos htotal, slice_flatten hpart, filter_flatten (· / batchSize) h.div_of_part hpart]
  have helem : (parts.map List.length)[i]? = some ((parts.map List.length).getD i 0) := by
    rw [List.getD_eq_getElem?_getD, List.getElem?_map, hpart]
    rfl
  have hplan : ∀ (β : Type) (f : List (List ℕ) × ℕ → List β),
      (assignments.zipIdx.map f)[i]? = some ((assignments.zipIdx.map f).getD i []) := by
    intro β f
    rw [List.getD_eq_getElem?_getD, List.getElem?_map, hx]
    rfl
  rw [SlicedDataDict.getBatch]
  simp only [hcounts, Option.mapM_some, hplan, helem, Option.map_some, hrows]
  rfl

end Shard

section Accepts

variable {args : SequencePackingArgs} {packer : SequencePacker} {inputLengths : List ℕ}
  {numChunks batchSize shards : ℕ} {assignments : List (List (List ℕ))}

theorem create_shards (capacity : ℤ) (hshards : 0 < shards) :
    ∃ packer, SequencePacker.create capacity (some (shards : ℤ)) (some (shards : ℤ)) = .ok packer ∧
      packer.binCapacity = capacity ∧ packer.minBinCount = some shards ∧
      packer.binCountMultiple = some shards := by
  have hmin : (some (shards : ℤ)).any (· < 0) = false := by
    rw [Option.any_some]
    exact decide_eq_false (by omega)
  have hmultiple : ¬ ∃ m ∈ some (shards : ℤ), m < 1 := by
    rintro ⟨m, hm, hlt⟩
    obtain rfl := Option.some.inj hm
    omega
  rw [SequencePacker.create, hmin, if_neg Bool.false_ne_true, dif_neg hmultiple]
  exact ⟨_, rfl, rfl, rfl, rfl⟩

theorem legalAssignments (hbatch : 0 < batchSize) (hshards : 0 < shards)
    (hlen : inputLengths.length = numChunks * batchSize)
    (hmin : packer.minBinCount = some shards) (hmultiple : packer.binCountMultiple = some shards)
    (h : allChunkBinAssignments args packer inputLengths numChunks batchSize = some assignments) :
    LegalAssignments args packer inputLengths numChunks batchSize shards assignments := by
  obtain ⟨hcount, hlegal⟩ := assignments_legal hbatch hlen h
  exact ⟨hbatch, hlen, hcount, hlegal, hmin, hmultiple, hshards⟩

/-- A packer that the shards share out accepts every chunk whose sequences fit. -/
theorem exists_assignments (hbatch : 0 < batchSize) (hdvd : shards ∣ batchSize)
    (hlen : inputLengths.length = numChunks * batchSize)
    (hmin : packer.minBinCount = some shards) (hmultiple : packer.binCountMultiple = some shards)
    (hfit : ∀ l ∈ inputLengths, (roundUp args.sequenceLengthPadMultiple l : ℤ) ≤ packer.binCapacity)
    (hpos : ∀ chunkIdx quotient, args.algorithm chunkIdx = .modifiedFirstFitDecreasing quotient →
      ∀ l ∈ inputLengths, 0 < roundUp args.sequenceLengthPadMultiple l) :
    ∃ assignments,
      allChunkBinAssignments args packer inputLengths numChunks batchSize = some assignments := by
  have hchunk : ∀ chunkIdx ∈ List.range numChunks, ∃ bins,
      (packer.pack (args.algorithm chunkIdx)
        ((chunkPaddedSeqlens args inputLengths batchSize chunkIdx).map Int.ofNat)).toOption =
          some bins := by
    intro chunkIdx hchunkIdx
    have hlength := length_chunkPaddedSeqlens args (List.mem_range.mp hchunkIdx) hlen
    have hentries : ∀ l ∈ (chunkPaddedSeqlens args inputLengths batchSize chunkIdx).map Int.ofNat,
        ∃ k ∈ inputLengths, l = (roundUp args.sequenceLengthPadMultiple k : ℤ) := by
      intro l hl
      obtain ⟨padded, hpadded, rfl⟩ := List.mem_map.mp hl
      obtain ⟨k, hk, rfl⟩ := List.mem_map.mp hpadded
      exact ⟨k, List.mem_of_mem_drop (List.mem_of_mem_take hk), rfl⟩
    have hbounds : ∀ l ∈ (chunkPaddedSeqlens args inputLengths batchSize chunkIdx).map Int.ofNat,
        0 ≤ l ∧ l ≤ packer.binCapacity := by
      intro l hl
      obtain ⟨k, hk, rfl⟩ := hentries l hl
      exact ⟨Int.natCast_nonneg _, hfit k hk⟩
    have hlengthpos : 0 < ((chunkPaddedSeqlens args inputLengths batchSize chunkIdx).map
        Int.ofNat).length := by
      rw [List.length_map, hlength]
      exact hbatch
    obtain ⟨first, hfirst⟩ := List.exists_mem_of_length_pos hlengthpos
    have hcap : 0 ≤ packer.binCapacity := (hbounds first hfirst).1.trans (hbounds first hfirst).2
    obtain ⟨natural, himp, hfilled⟩ := SequencePacker.packImplementation_filled (p := packer)
      (args.algorithm chunkIdx) (fun l hl ↦ (hbounds l hl).2) fun quotient halgorithm ↦ by
        have hpositive : ∀ l ∈ (chunkPaddedSeqlens args inputLengths batchSize chunkIdx).map
            Int.ofNat, 0 < l := by
          intro l hl
          obtain ⟨k, hk, rfl⟩ := hentries l hl
          exact_mod_cast hpos chunkIdx quotient halgorithm k hk
        exact ⟨(hpositive first hfirst).trans_le (hbounds first hfirst).2, hpositive⟩
    obtain ⟨bins, hbins⟩ := SequencePacker.pack_ok_of_dvd himp hfilled hcap hbounds hmin hmultiple
      hlengthpos (by rw [List.length_map, hlength]; exact hdvd)
    exact ⟨bins, by rw [hbins]; rfl⟩
  obtain ⟨assignments, hassignments, -⟩ := exists_forall₂ hchunk
  exact ⟨assignments, mapM_eq_some hassignments⟩

/-- `global_indices_per_shard`, flattened; nothing where the packer raises. -/
def packedSortedIndices (args : SequencePackingArgs) (inputLengths : List ℕ) (shards : ℕ)
    (batchSize : Option ℕ) : Option (List ℕ) :=
  let totalBatchSize := inputLengths.length
  let batchSize := batchSize.getD totalBatchSize
  match SequencePacker.create args.maxTokensPerMicrobatch (some (shards : ℤ))
      (some (shards : ℤ)) with
  | .error _ => none
  | .ok packer =>
    (allChunkBinAssignments args packer inputLengths (totalBatchSize / batchSize) batchSize).map
      fun assignments ↦ (List.range shards).flatMap fun shardIdx ↦
        (binsOfShard args inputLengths batchSize shards assignments shardIdx).flatMap fun x ↦
          x.1.flatMap fun bin ↦ bin.map (· + x.2.2)

/-- What `shard_by_batch_size` checks of a batch for sequence packing, and returns. -/
theorem shardByBatchSize_packing {inputSeqlen : ℕ} {batchSize : Option ℕ}
    {sharded : List SlicedDataDict}
    (h : shardByBatchSize inputLengths inputSeqlen shards batchSize none (some args) =
      some sharded) :
    ∃ numChunks size packer assignments,
      batchSize.getD inputLengths.length = size ∧ shards ∣ size ∧
      packer.binCapacity = args.maxTokensPerMicrobatch ∧
      LegalAssignments args packer inputLengths numChunks size shards assignments ∧
      (List.range shards).mapM (packedShard args inputLengths size shards assignments) =
        some sharded := by
  unfold shardByBatchSize at h
  simp only [Option.isSome_some, Option.isSome_none, Bool.false_eq_true, false_and, if_false] at h
  split_ifs at h with hbad hargs
  obtain ⟨hb, hmod, hs, hdiv⟩ : batchSize.getD inputLengths.length ≠ 0 ∧
      inputLengths.length % batchSize.getD inputLengths.length = 0 ∧ shards ≠ 0 ∧
        batchSize.getD inputLengths.length % shards = 0 := by
    push Not at hbad
    exact hbad
  obtain ⟨packer, hcreate, hcap, hmin, hmultiple⟩ := create_shards
    args.maxTokensPerMicrobatch (Nat.pos_of_ne_zero hs)
  rw [hcreate] at h
  obtain ⟨assignments, hassignments, hsharded⟩ := Option.bind_eq_some_iff.mp h
  exact ⟨_, _, packer, assignments, rfl, Nat.dvd_of_mod_eq_zero hdiv, hcap,
    legalAssignments (Nat.pos_of_ne_zero hb) (Nat.pos_of_ne_zero hs)
      (Nat.div_mul_cancel (Nat.dvd_of_mod_eq_zero hmod)).symm hmin hmultiple hassignments, hsharded⟩

end Accepts

section RoundTrip

variable {args : SequencePackingArgs} {packer : SequencePacker} {inputLengths : List ℕ}
  {numChunks size shards : ℕ} {assignments : List (List (List ℕ))}

theorem le_roundUp {multiple : ℕ} (h : 0 < multiple) (length : ℕ) :
    length ≤ roundUp multiple length := by
  have hdiv := Nat.div_add_mod (length + multiple - 1) multiple
  have hmod := Nat.mod_lt (length + multiple - 1) h
  rw [roundUp, Nat.mul_comm]
  omega

theorem packedShards_rows {sharded : List SlicedDataDict}
    (h : (List.range shards).mapM (packedShard args inputLengths size shards assignments) =
      some sharded) :
    sharded.flatMap SlicedDataDict.rows = (List.range shards).flatMap fun shardIdx ↦
      (binsOfShard args inputLengths size shards assignments shardIdx).flatMap fun x ↦
        x.1.flatMap fun bin ↦ bin.map (· + x.2.2) := by
  have hall := forall₂_of_mapM h
  clear h
  generalize List.range shards = l at hall ⊢
  induction hall with
  | nil => rfl
  | cons hshard _ ih =>
    rw [List.flatMap_cons, List.flatMap_cons, ih, packedShard_rows hshard, binsOfShard,
      List.flatMap_map]

/-- A batch packed for the shards is permuted by the indices that come with
them, and each shard gives its part of a chunk back as a batch. -/
theorem packed_round_trip (inputLengths : List ℕ) (inputSeqlen shards : ℕ) (batchSize : Option ℕ)
    (args : SequencePackingArgs) (hshards : 0 < shards)
    (hbatch : 0 < batchSize.getD inputLengths.length)
    (htotal : batchSize.getD inputLengths.length ∣ inputLengths.length)
    (hdvd : shards ∣ batchSize.getD inputLengths.length)
    (hmultiple : 0 < args.sequenceLengthPadMultiple)
    (horder : args.microbatchOrder ∈ [none, some "packer", some "largest_first"])
    (hfit : ∀ l ∈ inputLengths,
      (roundUp args.sequenceLengthPadMultiple l : ℤ) ≤ args.maxTokensPerMicrobatch)
    (hpos : ∀ chunkIdx quotient, args.algorithm chunkIdx = .modifiedFirstFitDecreasing quotient →
      ∀ l ∈ inputLengths, 0 < l) :
    ∃ sharded indices,
      shardByBatchSize inputLengths inputSeqlen shards batchSize none (some args) = some sharded ∧
      packedSortedIndices args inputLengths shards batchSize = some indices ∧
      sharded.length = shards ∧
      indices.Perm (List.range inputLengths.length) ∧
      RoundTrips sharded indices inputLengths.length ∧
      ∀ shard ∈ sharded, ∀ i < inputLengths.length / batchSize.getD inputLengths.length,
        shard.getBatch i none = some
          ⟨shard.rows.filter (· / batchSize.getD inputLengths.length = i),
            shard.microBatchIndices.map fun indices ↦ [indices.getD i []],
            shard.microBatchLengths.map fun lengths ↦ [lengths.getD i []],
            shard.elemCountsPerGb.map fun counts ↦ [counts.getD i 0]⟩ := by
  obtain ⟨packer, hcreate, hcap, hmin, hmul⟩ := create_shards args.maxTokensPerMicrobatch hshards
  have hlen := (Nat.div_mul_cancel htotal).symm
  obtain ⟨assignments, hassignments⟩ := exists_assignments hbatch hdvd hlen hmin hmul
    (by rw [hcap]; exact hfit) fun chunkIdx quotient halgorithm l hl ↦
      (hpos chunkIdx quotient halgorithm l hl).trans_le (le_roundUp hmultiple l)
  have hlegal := legalAssignments hbatch hshards hlen hmin hmul hassignments
  have hexists : ∀ shardIdx ∈ List.range shards, ∃ shard, packedShard args inputLengths
      (batchSize.getD inputLengths.length) shards assignments shardIdx = some shard :=
    fun shardIdx hshard ↦ ⟨_, hlegal.packedShard_eq (List.mem_range.mp hshard)⟩
  obtain ⟨sharded, hall, hmem⟩ := exists_forall₂ hexists
  have hmapM := mapM_eq_some hall
  have hsharded : shardByBatchSize inputLengths inputSeqlen shards batchSize none (some args) =
      some sharded := by
    unfold shardByBatchSize
    simp only [Option.isSome_some, Option.isSome_none, Bool.false_eq_true, false_and, if_false]
    have hgood : ¬ (batchSize.getD inputLengths.length = 0 ∨
        inputLengths.length % batchSize.getD inputLengths.length ≠ 0 ∨ shards = 0 ∨
          batchSize.getD inputLengths.length % shards ≠ 0) := by
      rw [not_or, not_or, not_or, not_not, not_not]
      exact ⟨hbatch.ne', Nat.mod_eq_zero_of_dvd htotal, hshards.ne', Nat.mod_eq_zero_of_dvd hdvd⟩
    rw [if_neg hgood, if_neg (not_or.mpr ⟨hmultiple.ne', not_not.mpr horder⟩), hcreate]
    exact Option.bind_eq_some_iff.mpr ⟨assignments, hassignments, hmapM⟩
  have hindices : packedSortedIndices args inputLengths shards batchSize =
      some (sharded.flatMap SlicedDataDict.rows) := by
    rw [packedSortedIndices, hcreate, packedShards_rows hmapM]
    exact Option.map_eq_some_iff.mpr ⟨assignments, hassignments, rfl⟩
  have hperm := shardByBatchSize_perm hsharded
  refine ⟨sharded, _, hsharded, hindices, ?_, hperm, (roundTrips_iff_rows hperm hperm).mpr rfl, ?_⟩
  · rw [← hall.length_eq, List.length_range]
  · intro shard hshard i hi
    obtain ⟨shardIdx, hshardIdx, heq⟩ := hmem shard hshard
    exact hlegal.getBatch_eq (List.mem_range.mp hshardIdx) heq hi

def firstFitArgs : SequencePackingArgs := ⟨fun _ ↦ .firstFitDecreasing, 4, 2, some "largest_first"⟩

theorem packed_round_trip_four : ∃ sharded indices,
    shardByBatchSize [1, 2, 3, 4] 4 2 (some 2) none (some firstFitArgs) = some sharded ∧
      packedSortedIndices firstFitArgs [1, 2, 3, 4] 2 (some 2) = some indices ∧
      RoundTrips sharded indices 4 := by
  obtain ⟨sharded, indices, hsharded, hindices, -, -, hround, -⟩ :=
    packed_round_trip [1, 2, 3, 4] 4 2 (some 2) firstFitArgs (by decide) (by decide) (by decide)
      (by decide) (by decide) (by decide) (by decide) fun _ _ h ↦ by cases h
  exact ⟨sharded, indices, hsharded, hindices, hround⟩

end RoundTrip

end NemoRL.Distributed.BatchedDataDict
