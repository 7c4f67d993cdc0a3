import Mathlib
import NemoRL.Models.Megatron.PackLayout

namespace NemoRL.Models.Megatron

open Foundations.Blocks Foundations.Ragged Distributed.ContextParallel

variable {α δ : Type}

/-- The routes of a batch, `[B, S, L, K]`: for each token the experts of each layer. -/
structure RoutedExpertsTensor where
  numMoeLayers : ℕ
  topk : ℕ
  rows : List (List (List (List ℕ)))

structure TokenIdentity where
  batchIdx : ℤ
  tokenPos : ℤ
  valid : ℤ
  deriving DecidableEq

def defaultRoute (numMoeLayers topk : ℕ) : List (List ℕ) :=
  List.replicate numMoeLayers (List.range topk)

def paddedIdentity : TokenIdentity := ⟨0, 0, 0⟩

section Shard

variable (pad : δ) (rows : List (List δ)) (seqLengths cuSeqlens : List ℕ)
  (cuSeqlensPadded : Option (List ℕ)) (cpRank cpSize : ℕ)

def paddedRow (b : ℕ) : List δ :=
  let seqLen := seqLengths.getD b 0
  let boundaries := cuSeqlensPadded.getD cuSeqlens
  let paddedLen := boundaries.getD (b + 1) 0 - boundaries.getD b 0
  let row := (rows.getD b []).take seqLen
  if paddedLen > seqLen then row ++ List.replicate (paddedLen - seqLen) pad else row

/-- What `_shard_routed_experts_for_cp` makes of either of its tensors: the packed rows and
those of this rank. -/
def shardRowsForCp : List δ × List δ :=
  let all := (List.range seqLengths.length).map (paddedRow pad rows seqLengths cuSeqlens
    cuSeqlensPadded)
  (all.flatten, (all.map fun row ↦
    if cpSize > 1 then getTokensOnThisCpRank cpRank cpSize row else row).flatten)

def shardRoutedExpertsForCp (routedExperts : Option RoutedExpertsTensor)
    (tokenIdentity : Option (List (List TokenIdentity))) :
    Option (List (List (List ℕ)) × List (List (List ℕ))) ×
      Option (List TokenIdentity × List TokenIdentity) :=
  (routedExperts.map fun routed ↦
      shardRowsForCp (defaultRoute routed.numMoeLayers routed.topk) routed.rows seqLengths cuSeqlens
        cuSeqlensPadded cpRank cpSize,
    tokenIdentity.map fun rows ↦
      shardRowsForCp paddedIdentity rows seqLengths cuSeqlens cuSeqlensPadded cpRank cpSize)

end Shard

section Boundaries

variable {padFactor padPackedSeqToMultipleOf cpRank cpSize : ℕ} {padPackedSeqTo : Option ℕ}
  {pad : δ}

theorem paddedRow_eq {rows : List (List δ)} {seqLengths cuSeqlens cuSeqlensPadded : List ℕ}
    {b seqLen : ℕ} {row : List δ} (hrow : rows[b]? = some row) (hlen : seqLengths[b]? = some seqLen) :
    paddedRow pad rows seqLengths cuSeqlens (some cuSeqlensPadded) b =
      row.take seqLen ++ List.replicate
        (cuSeqlensPadded.getD (b + 1) 0 - cuSeqlensPadded.getD b 0 - seqLen) pad := by
  simp only [paddedRow, Option.getD_some, List.getD_eq_getElem?_getD, hrow, hlen]
  split_ifs with hpad
  · rfl
  · rw [Nat.sub_eq_zero_of_le (not_lt.mp hpad), List.replicate_zero, List.append_nil]

theorem map_paddedRow (samples : List (List δ × ℕ)) (x : List δ × ℕ) (cuSeqlens : List ℕ) :
    (List.range (samples.length + 1)).map (paddedRow pad ((samples ++ [x]).map Prod.fst)
        ((samples ++ [x]).map Prod.snd) cuSeqlens (some (offsets (paddedLens padFactor samples) ++
          [packedLength padPackedSeqToMultipleOf padPackedSeqTo
            (paddedLens padFactor (samples ++ [x])).sum]))) =
      packParts padFactor padPackedSeqToMultipleOf padPackedSeqTo pad (samples ++ [x]) := by
  have hcount : (paddedLens padFactor samples).length = samples.length := by simp [paddedLens]
  set P := packedLength padPackedSeqToMultipleOf padPackedSeqTo
    (paddedLens padFactor (samples ++ [x])).sum with hP
  have hstart : ∀ k ≤ samples.length, (offsets (paddedLens padFactor samples) ++ [P]).getD k 0 =
      offset (paddedLens padFactor samples) k := fun k hk ↦ by
    have hlt : k < (offsets (paddedLens padFactor samples)).length := by
      rw [length_offsets, hcount]
      omega
    rw [List.getD_append _ _ _ _ hlt, getD_offsets (by rwa [hcount])]
  have hend : (offsets (paddedLens padFactor samples) ++ [P]).getD (samples.length + 1) 0 = P := by
    have hle : (offsets (paddedLens padFactor samples)).length = samples.length + 1 := by
      rw [length_offsets, hcount]
    rw [List.getD_append_right _ _ _ _ hle.le, hle, Nat.sub_self]
    rfl
  have hrow : ∀ b (y : List δ × ℕ), (samples ++ [x])[b]? = some y →
      ((samples ++ [x]).map Prod.fst)[b]? = some y.1 ∧
        ((samples ++ [x]).map Prod.snd)[b]? = some y.2 := fun b y hy ↦ by
    rw [List.getElem?_map, List.getElem?_map, hy]
    exact ⟨rfl, rfl⟩
  rw [packParts, padSequences_append, List.range_succ, List.map_append, List.map_singleton,
    Nat.zero_add]
  congr 1
  · refine List.ext_getElem (by simp) fun b hb hb' ↦ ?_
    have hlt : b < samples.length := by simpa using hb'
    obtain ⟨hfst, hsnd⟩ := hrow b samples[b] (by
      rw [List.getElem?_append_left hlt, List.getElem?_eq_getElem hlt])
    have hsucc : offset (paddedLens padFactor samples) (b + 1) =
        offset (paddedLens padFactor samples) b + roundUpToMultiple samples[b].2 padFactor := by
      apply offset_succ
      rw [paddedLens, List.getElem?_map, List.getElem?_map, List.getElem?_eq_getElem hlt]
      rfl
    rw [List.getElem_map, List.getElem_map, List.getElem_range, paddedRow_eq hfst hsnd,
      hstart b hlt.le, hstart (b + 1) hlt, hsucc, Nat.add_sub_cancel_left]
  · obtain ⟨hfst, hsnd⟩ := hrow samples.length x (by simp)
    have hsum : offset (paddedLens padFactor samples) samples.length =
        (paddedLens padFactor samples).sum := by
      rw [← hcount, offset_length]
    rw [paddedRow_eq hfst hsnd, hstart samples.length le_rfl, hend, hsum, hP, paddedLens_append,
      List.sum_append, List.sum_singleton]

theorem shardRowsForCp_eq {rows : List (List δ)} {seqLengths : List ℕ} (hpf : 0 < padFactor)
    (hcp : 1 < cpSize → 1 < padFactor) (hrows : rows.length = seqLengths.length)
    (hlens : ∀ y ∈ rows.zip seqLengths, y.2 ≤ y.1.length) {packed : PackedSequences δ}
    (h : packSequencesForMegatron padFactor padPackedSeqToMultipleOf padPackedSeqTo pad
      (rows.zip seqLengths) cpRank cpSize = .ok packed) :
    shardRowsForCp pad rows seqLengths packed.cuSeqlens (some packed.cuSeqlensPadded) cpRank cpSize =
      (packed.allInputIds, packed.packedInputIds) := by
  have hfst : (rows.zip seqLengths).map Prod.fst = rows := List.map_fst_zip hrows.le
  have hsnd : (rows.zip seqLengths).map Prod.snd = seqLengths := List.map_snd_zip hrows.ge
  rcases List.eq_nil_or_concat (rows.zip seqLengths) with hnil | ⟨samples, x, hconcat⟩
  · rw [hnil, packSequencesForMegatron] at h
    cases hmod : padPackedSeqTo.filter (· % padPackedSeqToMultipleOf ≠ 0) with
    | some length =>
      rw [hmod] at h
      cases h
    | none =>
      rw [hmod] at h
      cases h
  · rw [List.concat_eq_append] at hconcat
    rw [hconcat] at h hfst hsnd hlens
    obtain ⟨⟨hall, -, hpadded⟩, hpacked⟩ := packs_of_ok hpf hlens h
    have hlen : seqLengths.length = samples.length + 1 := by
      rw [← hsnd, List.length_map, List.length_append, List.length_singleton]
    have hparts := @map_paddedRow _ padFactor padPackedSeqToMultipleOf padPackedSeqTo pad samples x
      packed.cuSeqlens
    rw [hfst, hsnd, ← hpadded] at hparts
    rw [shardRowsForCp, hlen, hparts, hall, hpacked (by omega)]

end Boundaries

/-- The routes and the identities of a packed batch stand where its tokens stand, in the
whole pack and on every rank. -/
theorem routes_ride_tokens {cfg : MegatronCfg} {makeSequenceLengthDivisibleBy maxSeqLenInBatch
      padFactor padPackedSeqToMultipleOf cpRank width : ℕ} {padPackedSeqTo : Option ℕ} {padId : α}
    {inputIds : List (List α)} {seqLengths : List ℕ} {routedExperts : RoutedExpertsTensor}
    {tokenIdentity : List (List TokenIdentity)} {packed : PackedSequences α}
    (hpositive : 0 < makeSequenceLengthDivisibleBy)
    (hparams : getPackSequenceParametersForMegatron cfg makeSequenceLengthDivisibleBy
      maxSeqLenInBatch = .ok (padFactor, padPackedSeqToMultipleOf, padPackedSeqTo))
    (hids : inputIds.length = seqLengths.length ∧ ∀ row ∈ inputIds, row.length = width)
    (hroutes : routedExperts.rows.length = seqLengths.length ∧
      ∀ row ∈ routedExperts.rows, row.length = width)
    (hidentity : tokenIdentity.length = seqLengths.length ∧
      ∀ row ∈ tokenIdentity, row.length = width)
    (hlens : ∀ seqLen ∈ seqLengths, seqLen ≤ width)
    (hpack : packSequencesForMegatron padFactor padPackedSeqToMultipleOf padPackedSeqTo padId
      (inputIds.zip seqLengths) cpRank cfg.contextParallelSize = .ok packed) :
    ∃ layout routed routedCp identity identityCp,
      packSequencesForMegatron padFactor padPackedSeqToMultipleOf padPackedSeqTo none
          (taggedSamples width seqLengths) cpRank cfg.contextParallelSize = .ok layout ∧
        shardRoutedExpertsForCp seqLengths packed.cuSeqlens (some packed.cuSeqlensPadded) cpRank
            cfg.contextParallelSize (some routedExperts) (some tokenIdentity) =
          (some (routed, routedCp), some (identity, identityCp)) ∧
        Rides layout.allInputIds padId inputIds packed.allInputIds ∧
        Rides layout.packedInputIds padId inputIds packed.packedInputIds ∧
        Rides layout.allInputIds (defaultRoute routedExperts.numMoeLayers routedExperts.topk)
          routedExperts.rows routed ∧
        Rides layout.packedInputIds (defaultRoute routedExperts.numMoeLayers routedExperts.topk)
          routedExperts.rows routedCp ∧
        Rides layout.allInputIds paddedIdentity tokenIdentity identity ∧
        Rides layout.packedInputIds paddedIdentity tokenIdentity identityCp := by
  obtain ⟨rfl, -, hsplits, -⟩ := getPackSequenceParameters_ok hparams
  have hcp : 1 < cfg.contextParallelSize → 1 < padFactor := fun hcp ↦ by
    have hle := Nat.le_of_dvd hpositive (hsplits hcp)
    omega
  obtain ⟨layout, hlayout⟩ := exists_layout hids.1 hids.2 hpack
  have hrowLens : ∀ {δ : Type} {rows : List (List δ)}, (∀ row ∈ rows, row.length = width) →
      ∀ y ∈ rows.zip seqLengths, y.2 ≤ y.1.length := fun hwidth y hy ↦ by
    rw [hwidth y.1 (List.of_mem_zip hy).1]
    exact hlens y.2 (List.of_mem_zip hy).2
  obtain ⟨ids, hidsPack, hidsAll, hidsRank, hcu, hcuPadded⟩ := @pack_of_layout _ _ _ _ _ _ _ padId _
    _ hids.1 hids.2 _ hlayout
  obtain rfl : ids = packed := Except.ok.inj (hidsPack.symm.trans hpack)
  obtain ⟨routes, hroutesPack, hroutesAll, hroutesRank, hroutesCu, hroutesCuPadded⟩ :=
    @pack_of_layout _ _ _ _ _ _ _ (defaultRoute routedExperts.numMoeLayers routedExperts.topk) _ _
      hroutes.1 hroutes.2 _ hlayout
  obtain ⟨ident, hidentPack, hidentAll, hidentRank, hidentCu, hidentCuPadded⟩ :=
    @pack_of_layout _ _ _ _ _ _ _ paddedIdentity _ _ hidentity.1 hidentity.2 _ hlayout
  have hroutesShard := shardRowsForCp_eq hpositive hcp hroutes.1 (hrowLens hroutes.2) hroutesPack
  have hidentShard := shardRowsForCp_eq hpositive hcp hidentity.1 (hrowLens hidentity.2) hidentPack
  rw [hroutesCu, hroutesCuPadded, ← hcu, ← hcuPadded] at hroutesShard
  rw [hidentCu, hidentCuPadded, ← hcu, ← hcuPadded] at hidentShard
  refine ⟨layout, routes.allInputIds, routes.packedInputIds, ident.allInputIds, ident.packedInputIds,
    hlayout, ?_, hidsAll, hidsRank, hroutesAll, hroutesRank, hidentAll, hidentRank⟩
  rw [shardRoutedExpertsForCp, Option.map_some, Option.map_some, hroutesShard, hidentShard]

def twoRanks : MegatronCfg where
  tensorModelParallelSize := 1
  sequenceParallel := false
  pipelineModelParallelSize := 1
  contextParallelSize := 2

def routesOf (ids : List (List ℕ)) : RoutedExpertsTensor :=
  ⟨1, 2, ids.map (List.map fun id ↦ [[id, id + 1]])⟩

def identitiesOf (ids : List (List ℕ)) : List (List TokenIdentity) :=
  ids.mapIdx fun b row ↦ row.mapIdx fun t _ ↦ ⟨b, t, 1⟩

def shortBatch : List (List ℕ) := [[5, 6, 7, 0], [8, 9, 10, 11]]

theorem routes_ride_tokens_shortBatch :
    ∃ layout : PackedSequences (Option (ℕ × ℕ)), ∃ routedCp,
      layout.packedInputIds = [some (0, 0), none, some (1, 0), some (1, 3)] ∧
        Rides layout.packedInputIds (defaultRoute 1 2) (routesOf shortBatch).rows routedCp := by
  obtain ⟨layout, routed, routedCp, identity, identityCp, hlayout, -, -, -, -, hroutes, -⟩ :=
    @routes_ride_tokens _ twoRanks 4 8 _ _ 0 4 _ 0 shortBatch [3, 4] (routesOf shortBatch)
      (identitiesOf shortBatch) _ (by decide) rfl (by decide) (by decide) (by decide) (by decide)
      rfl
  refine ⟨layout, routedCp, ?_, hroutes⟩
  have heq := Except.ok.inj hlayout
  rw [← heq]
  rfl

end NemoRL.Models.Megatron
