import Mathlib
import NemoRL.Foundations.TopSets
import NemoRL.Distributed.ContextParallelExact
import NemoRL.Distributed.VocabShards

namespace NemoRL.Distributed.VocabShards

open Foundations.Blocks Foundations.TopSets ContextParallel

variable {β γ R : Type}

section Windows

variable {chunkSize : Option ℕ} {S : ℕ}

theorem flatMap_slice_windows (l : List γ) (n : ℕ) {e : ℕ} (he : 0 < e) :
    ((List.range ((n + e - 1) / e)).flatMap fun c ↦ slice l (c * e) (min n ((c + 1) * e))) =
      l.take n := by
  have hwindow : ∀ c, slice l (c * e) (min n ((c + 1) * e)) =
      ((l.take n).drop (c * e)).take e := by
    intro c
    have hsize : min n ((c + 1) * e) - c * e = min e (n - c * e) := by
      rw [Nat.succ_mul]
      omega
    rw [slice, List.drop_take, List.take_take, hsize]
  have hcover : n ≤ (n + e - 1) / e * e := by
    have hdiv := Nat.div_add_mod (n + e - 1) e
    have hmod := Nat.mod_lt (n + e - 1) he
    rw [Nat.mul_comm] at hdiv
    omega
  rw [List.flatMap_congr fun c _ ↦ hwindow c, flatMap_take_drop, List.take_take,
    Nat.min_eq_right hcover]

theorem overChunks_ok {chunk : ℕ → ℕ → Except VocabError (List γ)} {out : List γ}
    (hS : 0 < S) (hchunk : ∀ c, chunkSize = some c → 0 < c) (hout : out.length ≤ S)
    (h : ∀ s0 s1, s1 ≤ S → chunk s0 s1 = .ok (slice out s0 s1)) :
    overChunks chunkSize S chunk = .ok out := by
  have hpos : 0 < chunkSize.getD S := by
    cases chunkSize with
    | none => exact hS
    | some c => exact hchunk c rfl
  rw [overChunks, if_neg hpos.ne', if_neg hS.ne', mapM_pure_of_forall fun c _ ↦
    h (c * chunkSize.getD S) _ (Nat.min_le_left _ _)]
  have hflat := flatMap_slice_windows out S hpos
  rw [List.flatMap_def, List.take_of_length_le hout] at hflat
  exact congrArg Except.ok hflat

end Windows

section Gather

variable [NonAssocSemiring R]

theorem gatherEntry_ok {row : List R} {index : ℤ} (h0 : 0 ≤ index) (h : index < row.length) :
    gatherEntry row index = .ok (row.getD index.toNat 0) := by
  have hlt : index.toNat < row.length := by omega
  rw [gatherEntry, if_pos h0, List.getD_eq_getElem?_getD, List.getElem?_eq_getElem hlt]
  rfl

theorem clamp_mem {n : ℕ} (h : 0 < n) (x : ℤ) : 0 ≤ clamp 0 (n - 1) x ∧ clamp 0 (n - 1) x < n := by
  rw [clamp]
  omega

theorem clamp_of_mem {n : ℕ} {x : ℤ} (h0 : 0 ≤ x) (h : x < n) : clamp 0 (n - 1) x = x := by
  rw [clamp]
  omega

/-- The ids of a rank, when the vocabulary is shared out in rank order. -/
def rankRange (vLocal rank : ℕ) : VocabRange := ⟨(rank * vLocal : ℕ), ((rank + 1) * vLocal : ℕ)⟩

variable {worldSize vLocal rank : ℕ} {row : List R}

theorem localVals_block (hrow : row.length = worldSize * vLocal) (hrank : rank < worldSize)
    {gi : List ℤ} (hgi : ∀ i ∈ gi, 0 ≤ i ∧ i < (worldSize * vLocal : ℕ)) :
    localVals (rankRange vLocal rank) (block vLocal row rank) gi = .ok (gi.map fun i : ℤ ↦
      if (rank * vLocal : ℕ) ≤ i ∧ i < ((rank + 1) * vLocal : ℕ) then row.getD i.toNat 0
      else 0) := by
  have hend : (rank + 1) * vLocal ≤ row.length := by
    rw [hrow]
    exact Nat.mul_le_mul_right _ hrank
  have hlen : (block vLocal row rank).length = vLocal := length_block hend
  rw [localVals, hlen]
  refine mapM_pure_of_forall fun i hi ↦ ?_
  obtain ⟨h0, hlt⟩ := hgi i hi
  have hpos : 0 < vLocal := by
    rcases Nat.eq_zero_or_pos vLocal with rfl | hpos
    · simp only [Nat.mul_zero] at hlt
      omega
    · exact hpos
  obtain ⟨hlo, hhi⟩ := clamp_mem hpos (i - (rank * vLocal : ℕ))
  rw [rankRange]
  dsimp only
  rw [gatherEntry_ok hlo (by rw [hlen]; exact hhi)]
  refine congrArg Except.ok ?_
  split_ifs with hin
  · have hoff : i - (rank * vLocal : ℕ) < vLocal := by
      rw [Nat.succ_mul] at hin
      push_cast at hin ⊢
      omega
    rw [clamp_of_mem (by omega) hoff, mul_one]
    have hplace : rank * vLocal + (i - (rank * vLocal : ℕ)).toNat = i.toNat := by omega
    rw [block, getD_slice, hplace]
    rw [Nat.succ_mul]
    omega
  · rw [mul_zero]

theorem sum_ranks (x : R) {i : ℤ} (h0 : 0 ≤ i) (n : ℕ) :
    ((List.range n).map fun rank ↦
      if (rank * vLocal : ℕ) ≤ i ∧ i < ((rank + 1) * vLocal : ℕ) then x else 0).sum =
      if i < (n * vLocal : ℕ) then x else 0 := by
  induction n with
  | zero =>
    rw [if_neg (by rw [Nat.zero_mul]; omega)]
    rfl
  | succ n ih =>
    rw [List.range_succ, List.map_append, List.sum_append, ih, List.map_singleton,
      List.sum_singleton]
    have hle : n * vLocal ≤ (n + 1) * vLocal := Nat.mul_le_mul_right _ (Nat.le_succ n)
    split_ifs <;> first | omega | simp

theorem allReduceSum_map {δ ε : Type} (l : List δ) (ids : δ → List ε) (f : ℕ → δ → ε → R)
    {ranks : List ℕ} (h : ranks ≠ []) :
    allReduceSum (ranks.map fun rank ↦ l.map fun x ↦ (ids x).map (f rank x)) =
      l.map fun x ↦ (ids x).map fun i ↦ (ranks.map fun rank ↦ f rank x i).sum := by
  induction ranks with
  | nil => exact absurd rfl h
  | cons rank ranks ih =>
    cases ranks with
    | nil => simp [allReduceSum]
    | cons rank' ranks =>
      have hrest := ih (List.cons_ne_nil _ _)
      rw [List.map_cons] at hrest
      rw [List.map_cons, List.map_cons, allReduceSum, hrest, List.zipWith_map, List.zipWith_self]
      · refine List.map_congr_left fun x _ ↦ ?_
        rw [List.zipWith_map, List.zipWith_self]
        refine List.map_congr_left fun i _ ↦ ?_
        simp only [List.map_cons, List.sum_cons]
      · exact List.cons_ne_nil _ _

def gatherIds (row : List R) (ids : List ℤ) : List R := ids.map fun i ↦ row.getD i.toNat 0

variable {tpGroup : Option ℕ} {rows : List (List R)} {gi : List (List ℤ)}

theorem gatherChunk_ok (hw : 0 < tpGroup.getD 1)
    (hrows : ∀ row ∈ rows, row.length = tpGroup.getD 1 * vLocal)
    (hgi : ∀ ids ∈ gi, ∀ i ∈ ids, 0 ≤ i ∧ i < (tpGroup.getD 1 * vLocal : ℕ)) (s0 s1 : ℕ) :
    gatherChunk tpGroup (rankRange vLocal) (fun rank ↦ rows.map (block vLocal · rank)) gi s0 s1 =
      .ok (slice (List.zipWith gatherIds rows gi) s0 s1) := by
  let window := (slice rows s0 s1).zip (slice gi s0 s1)
  have hwindow : ∀ x ∈ window, x.1 ∈ rows ∧ x.2 ∈ gi := by
    intro x hx
    obtain ⟨h1, h2⟩ := List.of_mem_zip hx
    exact ⟨List.mem_of_mem_drop (List.mem_of_mem_take h1),
      List.mem_of_mem_drop (List.mem_of_mem_take h2)⟩
  have hrank : ∀ rank ∈ List.range (tpGroup.getD 1),
      ((slice (rows.map (block vLocal · rank)) s0 s1).zip (slice gi s0 s1)).mapM (fun x ↦
        localVals (rankRange vLocal rank) x.1 x.2) = .ok (window.map fun x ↦ x.2.map fun i : ℤ ↦
          if (rank * vLocal : ℕ) ≤ i ∧ i < ((rank + 1) * vLocal : ℕ) then x.1.getD i.toNat 0
          else 0) := by
    intro rank hrank
    have hzip : (slice (rows.map (block vLocal · rank)) s0 s1).zip (slice gi s0 s1) =
        window.map fun x ↦ (block vLocal x.1 rank, x.2) := by
      rw [slice, ← List.map_drop, ← List.map_take, List.zip_map_left]
      rfl
    rw [hzip, List.mapM_map]
    refine mapM_pure_of_forall fun x hx ↦ ?_
    obtain ⟨h1, h2⟩ := hwindow x hx
    exact localVals_block (hrows x.1 h1) (List.mem_range.mp hrank) (hgi x.2 h2)
  have hne : List.range (tpGroup.getD 1) ≠ [] := by
    rw [ne_eq, List.range_eq_nil]
    exact hw.ne'
  rw [gatherChunk, mapM_pure_of_forall hrank]
  refine congrArg Except.ok ?_
  rw [allReduceSum_map window Prod.snd _ hne, slice, List.drop_zipWith, List.take_zipWith,
    ← List.map_uncurry_zip_eq_zipWith]
  refine List.map_congr_left fun x hx ↦ List.map_congr_left fun i hi ↦ ?_
  obtain ⟨h0, hlt⟩ := hgi x.2 (hwindow x hx).2 i hi
  rw [sum_ranks _ h0, if_pos hlt]

end Gather

section Shards

variable {cpSize cpRank : ℕ}

/-- The logits of a batch as a rank holds them: the vocabulary in rank order, the positions in
the load-balanced layout. -/
def shardLogits (vLocal cpSize : ℕ) (full : List (List (List β))) (tpRank cpRank : ℕ) :
    List (List (List β)) :=
  full.map fun rows ↦ getTokensOnThisCpRank cpRank cpSize (rows.map (block vLocal · tpRank))

variable [NonAssocSemiring R] {tpGroup cpGroup chunkSize : Option ℕ} {vLocal S k : ℕ}
  {rows : List (List R)} {gi : List (List ℤ)}

theorem overChunks_gather (hw : 0 < tpGroup.getD 1) (hS : 0 < S)
    (hrows : ∀ row ∈ rows, row.length = tpGroup.getD 1 * vLocal)
    (hgi : ∀ ids ∈ gi, ∀ i ∈ ids, 0 ≤ i ∧ i < (tpGroup.getD 1 * vLocal : ℕ))
    (hle : gi.length ≤ S) (hchunk : ∀ c, chunkSize = some c → 0 < c) :
    overChunks chunkSize S (gatherChunk tpGroup (rankRange vLocal)
      (fun tpRank ↦ rows.map (block vLocal · tpRank)) gi) =
      .ok (List.zipWith gatherIds rows gi) := by
  apply overChunks_ok hS hchunk
  · rw [List.length_zipWith]
    exact (Nat.min_le_right _ _).trans hle
  · intro s0 s1 _
    exact gatherChunk_ok hw hrows hgi s0 s1

theorem gatherRow_ok (hw : 0 < tpGroup.getD 1) (hcp : 0 < cpGroup.getD 1)
    (hsplit : Splits (cpGroup.getD 1) rows.length) (hlen : rows.length = S * cpGroup.getD 1)
    (hrows : ∀ row ∈ rows, row.length = tpGroup.getD 1 * vLocal)
    (hgi : ∀ ids ∈ gi, ids.length = k ∧ ∀ i ∈ ids, 0 ≤ i ∧ i < (tpGroup.getD 1 * vLocal : ℕ))
    (hpos : 0 < gi.length) (hle : gi.length ≤ rows.length)
    (hchunk : ∀ c, chunkSize = some c → 0 < c) :
    gatherRow tpGroup cpGroup chunkSize (rankRange vLocal) S k
      (fun tpRank cpRank ↦ getTokensOnThisCpRank cpRank (cpGroup.getD 1)
        (rows.map (block vLocal · tpRank))) gi = .ok (List.zipWith gatherIds rows gi) := by
  have hS : 0 < S := by
    rcases Nat.eq_zero_or_pos S with rfl | hS
    · rw [Nat.zero_mul] at hlen
      omega
    · exact hS
  rw [gatherRow]
  dsimp only
  simp only [← map_getTokensOnThisCpRank]
  generalize cpGroup.getD 1 = cpSize at hcp hsplit hlen ⊢
  rcases Nat.lt_or_ge 1 cpSize with hlt | hge
  · have hlen' : (gi ++ List.replicate (S * cpSize - gi.length) (List.replicate k (0 : ℤ))).length =
        rows.length := by
      rw [List.length_append, List.length_replicate]
      omega
    have hids : ∀ ids ∈ gi ++ List.replicate (S * cpSize - gi.length) (List.replicate k (0 : ℤ)),
        ∀ i ∈ ids, 0 ≤ i ∧ i < (tpGroup.getD 1 * vLocal : ℕ) := by
      intro ids hmem i hi
      rcases List.mem_append.mp hmem with hreal | hpad
      · exact (hgi ids hreal).2 i hi
      · obtain rfl := (List.mem_replicate.mp hpad).2
        obtain ⟨hk, rfl⟩ := List.mem_replicate.mp hi
        obtain ⟨first, hfirst⟩ := List.exists_mem_of_length_pos hpos
        obtain ⟨hlength, hrange⟩ := hgi first hfirst
        obtain ⟨j, hj⟩ := List.exists_mem_of_length_pos (hlength.symm ▸ Nat.pos_of_ne_zero hk)
        obtain ⟨h0, hlt⟩ := hrange j hj
        exact ⟨le_rfl, h0.trans_lt hlt⟩
    have hlocal : ∀ cpRank ∈ List.range cpSize, overChunks chunkSize S
        (gatherChunk tpGroup (rankRange vLocal)
          (fun tpRank ↦ (getTokensOnThisCpRank cpRank cpSize rows).map (block vLocal · tpRank))
          (getTokensOnThisCpRank cpRank cpSize
            (gi ++ List.replicate (S * cpSize - gi.length) (List.replicate k 0)))) =
        .ok (getTokensOnThisCpRank cpRank cpSize (List.zipWith gatherIds rows
          (gi ++ List.replicate (S * cpSize - gi.length) (List.replicate k 0)))) := by
      intro cpRank hrank
      have hr := List.mem_range.mp hrank
      rw [getTokensOnThisCpRank_zipWith _ hlen'.symm hsplit hr]
      apply overChunks_gather hw hS _ _ _ hchunk
      · exact fun row hrow ↦ hrows row (mem_of_mem_getTokens hrow)
      · exact fun ids hmem ↦ hids ids (mem_of_mem_getTokens hmem)
      · rw [length_getTokensOnThisCpRank (hlen'.symm ▸ hsplit) hr, hlen', hlen,
          Nat.mul_div_cancel _ hcp]
    simp only [if_pos hlt]
    rw [mapM_pure_of_forall hlocal]
    have hgathered : allgatherCpShardedTensor cpSize (fun cpRank ↦
        ((List.range cpSize).map fun cpRank ↦ getTokensOnThisCpRank cpRank cpSize
          (List.zipWith gatherIds rows (gi ++ List.replicate (S * cpSize - gi.length)
            (List.replicate k 0)))).getD cpRank []) = List.zipWith gatherIds rows
          (gi ++ List.replicate (S * cpSize - gi.length) (List.replicate k 0)) := by
      refine (allgather_congr fun cpRank hr ↦ ?_).trans (allgather_getTokens hlt ?_)
      · rw [List.getD_eq_getElem?_getD, List.getElem?_map, List.getElem?_range hr]
        rfl
      · rw [List.length_zipWith, hlen', Nat.min_self]
        exact hsplit hlt
    refine congrArg Except.ok ?_
    rw [hgathered, List.length_zipWith, hlen', Nat.min_self]
    split_ifs with hpad
    · have hcut : rows.length - (S * cpSize - gi.length) = gi.length := by omega
      rw [hcut, List.take_zipWith, List.take_left, List.zipWith_eq_zipWith_take_min,
        List.length_take, Nat.min_eq_left hle, Nat.min_self, List.take_length, List.take_take,
        Nat.min_self, eq_comm, List.zipWith_eq_zipWith_take_min, Nat.min_eq_right hle,
        List.take_length]
    · have hnone : S * cpSize - gi.length = 0 := by omega
      rw [hnone, List.replicate_zero, List.append_nil]
  · obtain rfl : cpSize = 1 := by omega
    have hone : ∀ cpRank ∈ List.range 1, overChunks chunkSize S
        (gatherChunk tpGroup (rankRange vLocal)
          (fun tpRank ↦ (getTokensOnThisCpRank cpRank 1 rows).map (block vLocal · tpRank)) gi) =
        .ok (List.zipWith gatherIds rows gi) := by
      intro cpRank _
      rw [getTokensOnThisCpRank_one]
      exact overChunks_gather hw hS hrows (fun ids hmem ↦ (hgi ids hmem).2) (by omega) hchunk
    simp only [if_neg (Nat.lt_irrefl 1)]
    rw [mapM_pure_of_forall hone]
    rfl

/-- The batch, on every rank: the logits of the whole vocabulary at the indices of each real
position, in the order of the sequence. -/
theorem gatherLogits_ok {full : List (List (List R))} {globalIndices : List (List (List ℤ))}
    {seqLen : ℕ} (hw : 0 < tpGroup.getD 1) (hcp : 0 < cpGroup.getD 1)
    (hsplit : Splits (cpGroup.getD 1) (S * cpGroup.getD 1))
    (hfull : ∀ rows ∈ full, rows.length = S * cpGroup.getD 1 ∧
      ∀ row ∈ rows, row.length = tpGroup.getD 1 * vLocal)
    (hbatch : full.length = globalIndices.length)
    (hindices : ∀ gi ∈ globalIndices, gi.length = seqLen ∧ ∀ ids ∈ gi, ids.length = k ∧
      ∀ i ∈ ids, 0 ≤ i ∧ i < (tpGroup.getD 1 * vLocal : ℕ))
    (hpos : 0 < seqLen) (hle : seqLen ≤ S * cpGroup.getD 1)
    (hchunk : ∀ c, chunkSize = some c → 0 < c) :
    gatherLogitsAtGlobalIndices tpGroup cpGroup chunkSize (rankRange vLocal)
      (shardLogits vLocal (cpGroup.getD 1) full) globalIndices =
        .ok (List.zipWith (List.zipWith gatherIds) full globalIndices) := by
  have hrow : ∀ x ∈ globalIndices.zipIdx, gatherRow tpGroup cpGroup chunkSize (rankRange vLocal)
      ((shardLogits vLocal (cpGroup.getD 1) full 0 0).headD []).length
      ((globalIndices.headD []).headD []).length
      (fun tpRank cpRank ↦ (shardLogits vLocal (cpGroup.getD 1) full tpRank cpRank).getD x.2 [])
        x.1 = .ok (List.zipWith gatherIds (full.getD x.2 []) x.1) := by
    rintro ⟨gi, b⟩ hx
    have hgi := List.mk_mem_zipIdx_iff_getElem?.mp hx
    have hlt : b < full.length := by
      rw [hbatch]
      exact (List.getElem?_eq_some_iff.mp hgi).1
    obtain ⟨hrowsLen, hrows⟩ := hfull full[b] (List.getElem_mem hlt)
    obtain ⟨hseq, hids⟩ := hindices gi (List.mem_of_getElem? hgi)
    have hS : ((shardLogits vLocal (cpGroup.getD 1) full 0 0).headD []).length = S := by
      cases full with
      | nil => exact absurd hlt (Nat.not_lt_zero b)
      | cons rows full =>
        have hlen : (rows.map (block vLocal · 0)).length = S * cpGroup.getD 1 := by
          rw [List.length_map]
          exact (hfull rows (List.mem_cons_self ..)).1
        rw [shardLogits, List.map_cons, List.headD_cons,
          length_getTokensOnThisCpRank (hlen.symm ▸ hsplit) hcp, hlen, Nat.mul_div_cancel _ hcp]
    have hk : ((globalIndices.headD []).headD []).length = k := by
      cases globalIndices with
      | nil => cases hgi
      | cons first globalIndices =>
        obtain ⟨hfirst, hlengths⟩ := hindices first (List.mem_cons_self ..)
        cases first with
        | nil => exact absurd hfirst hpos.ne
        | cons ids first => exact (hlengths ids (List.mem_cons_self ..)).1
    have hlogits : ∀ tpRank cpRank,
        (shardLogits vLocal (cpGroup.getD 1) full tpRank cpRank).getD b [] =
          getTokensOnThisCpRank cpRank (cpGroup.getD 1) (full[b].map (block vLocal · tpRank)) := by
      intro tpRank cpRank
      rw [shardLogits, List.getD_eq_getElem?_getD, List.getElem?_map,
        List.getElem?_eq_getElem hlt]
      rfl
    rw [hS, hk, List.getD_eq_getElem _ _ hlt]
    simp only [hlogits]
    exact gatherRow_ok hw hcp (hrowsLen.symm ▸ hsplit) hrowsLen hrows hids (hseq.symm ▸ hpos)
      (by omega) hchunk
  rw [gatherLogitsAtGlobalIndices, mapM_pure_of_forall hrow]
  refine congrArg Except.ok (List.ext_getElem? fun b ↦ ?_)
  rw [List.getElem?_map, List.getElem?_zipIdx, List.getElem?_zipWith]
  rcases Nat.lt_or_ge b full.length with hlt | hge
  · have hlt' : b < globalIndices.length := hbatch ▸ hlt
    rw [List.getElem?_eq_getElem hlt, List.getElem?_eq_getElem hlt', Option.map_some,
      Option.map_some, Nat.zero_add, List.getD_eq_getElem _ _ hlt]
  · rw [List.getElem?_eq_none hge, List.getElem?_eq_none (hbatch ▸ hge)]
    rfl

end Shards

section Topk

variable [LinearOrder β] {row : List β} {k : ℕ}

/-- What `torch.topk` promises: `k` entries with their places, and none left out is larger. -/
structure TopkOf (row : List β) (k : ℕ) (sel : List (β × ℕ)) : Prop where
  length_eq : sel.length = k
  getElem?_eq : ∀ x ∈ sel, row[x.2]? = some x.1
  nodup : (sel.map Prod.snd).Nodup
  le_of_not_mem : ∀ x ∈ sel, ∀ i v, row[i]? = some v → i ∉ sel.map Prod.snd → v ≤ x.1

def IsTopk (topk : Topk β) : Prop :=
  ∀ row k, k ≤ row.length → ∃ sel, topk row k = .ok sel ∧ TopkOf row k sel

theorem image_toFinset {δ ε : Type} [DecidableEq δ] [DecidableEq ε] (f : δ → ε) (l : List δ) :
    l.toFinset.image f = (l.map f).toFinset := by
  ext x
  simp only [Finset.mem_image, List.mem_toFinset, List.mem_map]

variable (d : β)

theorem TopkOf.isTop {sel : List (β × ℕ)} (h : TopkOf row k sel) (hk : k ≤ row.length) :
    IsTop (row.getD · d) k (Finset.range row.length) (sel.map Prod.snd).toFinset := by
  have hvalue : ∀ x ∈ sel, row.getD x.2 d = x.1 := by
    intro x hx
    rw [List.getD_eq_getElem?_getD, h.getElem?_eq x hx, Option.getD_some]
  refine ⟨?_, ?_, ?_⟩
  · intro i hi
    obtain ⟨x, hx, rfl⟩ := List.mem_map.mp (List.mem_toFinset.mp hi)
    exact Finset.mem_range.mpr (List.getElem?_eq_some_iff.mp (h.getElem?_eq x hx)).1
  · rw [List.toFinset_card_of_nodup h.nodup, List.length_map, h.length_eq, Finset.card_range,
      Nat.min_eq_left hk]
  · intro i hi j hj hnot
    obtain ⟨x, hx, rfl⟩ := List.mem_map.mp (List.mem_toFinset.mp hi)
    have hj' := Finset.mem_range.mp hj
    rw [hvalue x hx, List.getD_eq_getElem _ _ hj']
    exact h.le_of_not_mem x hx j _ (List.getElem?_eq_getElem hj')
      fun hmem ↦ hnot (List.mem_toFinset.mpr hmem)

/-- The entries that a position is given: as many as there are ids, up to `k`, with their logits,
and no id left out has a larger logit. -/
structure TopIds (k : ℕ) (row : List β) (sel : List (β × ℤ)) : Prop where
  length_eq : sel.length = min k row.length
  nodup : (sel.map Prod.snd).Nodup
  logit : ∀ x ∈ sel, 0 ≤ x.2 ∧ row[x.2.toNat]? = some x.1
  le_of_not_mem : ∀ x ∈ sel, ∀ (i : ℕ) (v : β), row[i]? = some v →
    (i : ℤ) ∉ sel.map Prod.snd → v ≤ x.1

variable {topk : Topk β} {worldSize vLocal : ℕ}

theorem isTop_rank {rank : ℕ} {picked : List (β × ℕ)} (hend : (rank + 1) * vLocal ≤ row.length)
    (h : TopkOf (block vLocal row rank) (min k vLocal) picked) :
    IsTop (fun i : ℤ ↦ row.getD i.toNat d) k
      ((Finset.range vLocal).image fun i : ℕ ↦ (i : ℤ) + (rank * vLocal : ℕ))
      (picked.map fun x ↦ (x.2 : ℤ) + (rank * vLocal : ℕ)).toFinset := by
  have hlen : (block vLocal row rank).length = vLocal := length_block hend
  have hlocal := h.isTop d (by rw [hlen]; exact Nat.min_le_right _ _)
  rw [hlen] at hlocal
  have hshift := (hlocal.congr (g := (fun i : ℤ ↦ row.getD i.toNat d) ∘ fun i : ℕ ↦
    (i : ℤ) + (rank * vLocal : ℕ)) ?_).of_min (by rw [Finset.card_range])
  · have himage := hshift.image fun a _ b _ hab ↦ by
      have heq : (a : ℤ) + (rank * vLocal : ℕ) = (b : ℤ) + (rank * vLocal : ℕ) := hab
      omega
    rw [image_toFinset, List.map_map] at himage
    exact himage
  · intro i hi
    have hi' := Finset.mem_range.mp hi
    have hplace : ((i : ℤ) + (rank * vLocal : ℕ)).toNat = rank * vLocal + i := by omega
    rw [Function.comp_apply, hplace, block, getD_slice]
    rw [Nat.succ_mul]
    omega

def rankCandidates (vLocal rank : ℕ) (picked : List (β × ℕ)) : List (β × ℤ) :=
  picked.map fun x ↦ (x.1, (x.2 : ℤ) + (rank * vLocal : ℕ))

theorem mem_rankCandidates {rank : ℕ} {picked : List (β × ℕ)} {x : β × ℤ}
    (hend : (rank + 1) * vLocal ≤ row.length)
    (h : TopkOf (block vLocal row rank) (min k vLocal) picked)
    (hx : x ∈ rankCandidates vLocal rank picked) : (rank * vLocal : ℕ) ≤ x.2 ∧
      x.2 < ((rank + 1) * vLocal : ℕ) ∧ row[x.2.toNat]? = some x.1 := by
  obtain ⟨y, hy, rfl⟩ := List.mem_map.mp hx
  have hvalue := h.getElem?_eq y hy
  have hlt : y.2 < vLocal := by
    have hbound := (List.getElem?_eq_some_iff.mp hvalue).1
    rw [length_block hend] at hbound
    exact hbound
  have hplace : ((y.2 : ℤ) + (rank * vLocal : ℕ)).toNat = rank * vLocal + y.2 := by omega
  refine ⟨by omega, ?_, ?_⟩
  · rw [Nat.succ_mul]
    push_cast
    omega
  · rw [block, getElem?_slice (by rw [Nat.succ_mul]; omega)] at hvalue
    rw [hplace]
    exact hvalue

theorem nodup_candidates {picked : ℕ → List (β × ℕ)}
    (hend : ∀ rank < worldSize, (rank + 1) * vLocal ≤ row.length)
    (h : ∀ rank < worldSize, TopkOf (block vLocal row rank) (min k vLocal) (picked rank)) :
    (((List.range worldSize).flatMap fun rank ↦
      rankCandidates vLocal rank (picked rank)).map Prod.snd).Nodup := by
  rw [List.map_flatMap, List.nodup_flatMap]
  constructor
  · intro rank hrank
    have hids : (rankCandidates vLocal rank (picked rank)).map Prod.snd =
        ((picked rank).map Prod.snd).map fun i : ℕ ↦ (i : ℤ) + (rank * vLocal : ℕ) := by
      rw [rankCandidates, List.map_map, List.map_map]
      rfl
    rw [hids]
    refine (h rank (List.mem_range.mp hrank)).nodup.map fun a b hab ↦ ?_
    have heq : (a : ℤ) + (rank * vLocal : ℕ) = (b : ℤ) + (rank * vLocal : ℕ) := hab
    omega
  · refine List.pairwise_lt_range.imp_of_mem fun {rank rank'} hrank hrank' hlt i hi hi' ↦ ?_
    have hr := List.mem_range.mp hrank
    have hr' := List.mem_range.mp hrank'
    obtain ⟨x, hx, rfl⟩ := List.mem_map.mp hi
    obtain ⟨y, hy, heq⟩ := List.mem_map.mp hi'
    obtain ⟨-, hhi, -⟩ := mem_rankCandidates (hend rank hr) (h rank hr) hx
    obtain ⟨hlo, -, -⟩ := mem_rankCandidates (hend rank' hr') (h rank' hr') hy
    have hle : (rank + 1) * vLocal ≤ rank' * vLocal := Nat.mul_le_mul_right _ hlt
    omega

theorem TopkOf.select {all : List (β × ℤ)} {sel : List (β × ℕ)}
    (h : TopkOf (all.map Prod.fst) k sel) (hk : k ≤ all.length)
    (hnodup : (all.map Prod.snd).Nodup)
    (hentries : ∀ x ∈ all, row[x.2.toNat]? = some x.1) :
    (∀ x ∈ sel, (x.1, (all.map Prod.snd).getD x.2 0) ∈ all) ∧
      (sel.map fun x ↦ (all.map Prod.snd).getD x.2 0).Nodup ∧
      IsTop (fun i : ℤ ↦ row.getD i.toNat d) k (all.map Prod.snd).toFinset
        (sel.map fun x ↦ (all.map Prod.snd).getD x.2 0).toFinset := by
  have hid : ∀ p < all.length, (all.map Prod.snd).getD p 0 = (all.getD p (d, 0)).2 := by
    intro p hp
    rw [List.getD_eq_getElem _ _ (by rw [List.length_map]; exact hp), List.getElem_map,
      List.getD_eq_getElem _ _ hp]
  have hmem : ∀ p < all.length, all.getD p (d, 0) ∈ all := by
    intro p hp
    rw [List.getD_eq_getElem _ _ hp]
    exact List.getElem_mem hp
  have hinj : Set.InjOn (fun p ↦ (all.map Prod.snd).getD p 0) (Finset.range all.length) := by
    intro p hp q hq heq
    have hp' : p < (all.map Prod.snd).length := by
      rw [List.length_map]
      exact Finset.mem_range.mp hp
    have hq' : q < (all.map Prod.snd).length := by
      rw [List.length_map]
      exact Finset.mem_range.mp hq
    dsimp only at heq
    rw [List.getD_eq_getElem _ _ hp', List.getD_eq_getElem _ _ hq'] at heq
    exact (hnodup.getElem_inj_iff).mp heq
  have hplace : ∀ x ∈ sel, x.2 < all.length ∧ (all.getD x.2 (d, 0)).1 = x.1 := by
    intro x hx
    have hvalue := h.getElem?_eq x hx
    rw [List.getElem?_map] at hvalue
    obtain ⟨y, hy, heq⟩ := Option.map_eq_some_iff.mp hvalue
    refine ⟨(List.getElem?_eq_some_iff.mp hy).1, ?_⟩
    rw [List.getD_eq_getElem?_getD, hy, Option.getD_some, heq]
  refine ⟨?_, ?_, ?_⟩
  · intro x hx
    obtain ⟨hlt, hvalue⟩ := hplace x hx
    rw [hid x.2 hlt, ← hvalue]
    exact hmem x.2 hlt
  · have hmap : (sel.map fun x ↦ (all.map Prod.snd).getD x.2 0) =
        (sel.map Prod.snd).map fun p ↦ (all.map Prod.snd).getD p 0 := by
      rw [List.map_map]
      rfl
    rw [hmap]
    refine h.nodup.map_on fun p hp q hq heq ↦ hinj ?_ ?_ heq
    · obtain ⟨x, hx, rfl⟩ := List.mem_map.mp hp
      exact Finset.mem_range.mpr (hplace x hx).1
    · obtain ⟨x, hx, rfl⟩ := List.mem_map.mp hq
      exact Finset.mem_range.mpr (hplace x hx).1
  · have hplaces := h.isTop d (by rw [List.length_map]; exact hk)
    rw [List.length_map] at hplaces
    have himage := (hplaces.congr (g := (fun i : ℤ ↦ row.getD i.toNat d) ∘
      fun p ↦ (all.map Prod.snd).getD p 0) ?_).image hinj
    · rw [image_toFinset, List.map_map] at himage
      have hall : (Finset.range all.length).image (fun p ↦ (all.map Prod.snd).getD p 0) =
          (all.map Prod.snd).toFinset := by
        rw [← List.toFinset_range, image_toFinset]
        refine congrArg List.toFinset (List.ext_getElem ?_ fun p hp hp' ↦ ?_)
        · rw [List.length_map, List.length_range, List.length_map]
        · rw [List.getElem_map, List.getElem_range, List.getD_eq_getElem _ _ hp']
      rw [hall] at himage
      exact himage
    · intro p hp
      have hlt := Finset.mem_range.mp hp
      have hvalue := hentries _ (hmem p hlt)
      have hright : row.getD (all.getD p (d, 0)).2.toNat d = (all.getD p (d, 0)).1 := by
        rw [List.getD_eq_getElem?_getD, hvalue, Option.getD_some]
      rw [Function.comp_apply, hid p hlt, hright, List.getD_eq_getElem _ _ hlt,
        List.getD_eq_getElem _ _ (by rw [List.length_map]; exact hlt), List.getElem_map]

theorem isTop_whole {picked : ℕ → List (β × ℕ)} {best : Finset ℤ}
    (hrow : row.length = worldSize * vLocal)
    (h : ∀ rank < worldSize, TopkOf (block vLocal row rank) (min k vLocal) (picked rank))
    (hbest : IsTop (fun i : ℤ ↦ row.getD i.toNat d) (min k (max 1 (vLocal * worldSize)))
      (((List.range worldSize).flatMap fun rank ↦
        rankCandidates vLocal rank (picked rank)).map Prod.snd).toFinset best) :
    IsTop (fun i : ℤ ↦ row.getD i.toNat d) k
      ((Finset.range row.length).image fun i : ℕ ↦ (i : ℤ)) best := by
  have hend : ∀ rank < worldSize, (rank + 1) * vLocal ≤ row.length := by
    intro rank hrank
    rw [hrow]
    exact Nat.mul_le_mul_right _ hrank
  have hrank : ∀ rank ∈ Finset.range worldSize, IsTop (fun i : ℤ ↦ row.getD i.toNat d) k
      ((Finset.range vLocal).image fun i : ℕ ↦ (i : ℤ) + (rank * vLocal : ℕ))
      ((picked rank).map fun x ↦ (x.2 : ℤ) + (rank * vLocal : ℕ)).toFinset := by
    intro rank hrank
    have hr := Finset.mem_range.mp hrank
    exact isTop_rank d (hend rank hr) (h rank hr)
  have hids : (((List.range worldSize).flatMap fun rank ↦
      rankCandidates vLocal rank (picked rank)).map Prod.snd).toFinset =
        (Finset.range worldSize).biUnion fun rank ↦
          ((picked rank).map fun x ↦ (x.2 : ℤ) + (rank * vLocal : ℕ)).toFinset := by
    ext i
    simp only [rankCandidates, List.map_flatMap, List.map_map, List.mem_toFinset,
      List.mem_flatMap, List.mem_range, Finset.mem_biUnion, Finset.mem_range, Function.comp_def]
  have hwhole : ((Finset.range worldSize).biUnion fun rank ↦
      (Finset.range vLocal).image fun i : ℕ ↦ (i : ℤ) + (rank * vLocal : ℕ)) =
        (Finset.range row.length).image fun i : ℕ ↦ (i : ℤ) := by
    ext i
    simp only [Finset.mem_biUnion, Finset.mem_image, Finset.mem_range]
    constructor
    · rintro ⟨rank, hr, a, ha, rfl⟩
      have hle := hend rank hr
      rw [Nat.succ_mul] at hle
      exact ⟨rank * vLocal + a, by omega, by push_cast; omega⟩
    · rintro ⟨p, hp, rfl⟩
      rw [hrow] at hp
      have hpos : 0 < vLocal := Nat.pos_of_mul_pos_left (Nat.zero_lt_of_lt hp)
      refine ⟨p / vLocal, (Nat.div_lt_iff_lt_mul hpos).mpr hp, p % vLocal, Nat.mod_lt p hpos, ?_⟩
      have hdiv := Nat.mod_add_div p vLocal
      rw [Nat.mul_comm] at hdiv
      omega
  rw [hids] at hbest
  rw [← hwhole]
  refine .biUnion hrank (hbest.of_min ?_)
  calc _ ≤ ((Finset.range worldSize).biUnion fun rank ↦ (Finset.range vLocal).image
        fun i : ℕ ↦ (i : ℤ) + (rank * vLocal : ℕ)).card :=
      Finset.card_le_card (Finset.biUnion_mono fun rank hr ↦ (hrank rank hr).subset)
    _ ≤ row.length := by
      rw [hwhole]
      exact Finset.card_image_le.trans_eq (Finset.card_range _)
    _ = vLocal * worldSize := by rw [hrow, Nat.mul_comm]
    _ ≤ max 1 (vLocal * worldSize) := Nat.le_max_right _ _

/-- One position: the best of the candidates of the ranks are the best of the vocabulary. -/
theorem topkPosition_ok (htopk : IsTopk topk) (hpos : 0 < worldSize * vLocal)
    (hrow : row.length = worldSize * vLocal) :
    ∃ sel, topkPosition topk worldSize k vLocal (rankRange vLocal) (block vLocal row) = .ok sel ∧
      TopIds k row sel := by
  have hend : ∀ rank < worldSize, (rank + 1) * vLocal ≤ row.length := by
    intro rank hrank
    rw [hrow]
    exact Nat.mul_le_mul_right _ hrank
  have hlocal : ∀ rank < worldSize, ∃ picked, topk (block vLocal row rank) (min k vLocal) =
      .ok picked ∧ TopkOf (block vLocal row rank) (min k vLocal) picked := by
    intro rank hrank
    apply htopk
    rw [length_block (hend rank hrank)]
    exact Nat.min_le_right _ _
  choose! picked hok htop using hlocal
  let all := (List.range worldSize).flatMap fun rank ↦ rankCandidates vLocal rank (picked rank)
  have hentries : ∀ x ∈ all, 0 ≤ x.2 ∧ row[x.2.toNat]? = some x.1 := by
    intro x hx
    obtain ⟨rank, hrank, hx⟩ := List.mem_flatMap.mp hx
    have hr := List.mem_range.mp hrank
    obtain ⟨hlo, -, hvalue⟩ := mem_rankCandidates (hend rank hr) (htop rank hr) hx
    exact ⟨(Int.natCast_nonneg _).trans hlo, hvalue⟩
  have hlength : all.length = worldSize * min k vLocal := by
    rw [List.length_flatMap, List.map_congr_left fun rank hrank ↦ by
      rw [rankCandidates, List.length_map, (htop rank (List.mem_range.mp hrank)).length_eq],
      List.map_const', List.length_range, List.sum_replicate, smul_eq_mul]
  have henough : min k (max 1 (vLocal * worldSize)) ≤ all.length := by
    have hw : 0 < worldSize := Nat.pos_of_mul_pos_right hpos
    rw [hlength, Nat.mul_comm vLocal, Nat.max_eq_right hpos]
    rcases Nat.le_total k vLocal with hle | hle
    · rw [Nat.min_eq_left hle]
      exact (Nat.min_le_left _ _).trans (Nat.le_mul_of_pos_left k hw)
    · rw [Nat.min_eq_right hle]
      exact Nat.min_le_right _ _
  obtain ⟨sel, hsel, hof⟩ := htopk (all.map Prod.fst) (min k (max 1 (vLocal * worldSize)))
    (by rw [List.length_map]; exact henough)
  obtain ⟨d, -⟩ := List.exists_mem_of_length_pos (hrow.symm ▸ hpos)
  obtain ⟨hmem, hnodup, hbest⟩ := hof.select d henough (nodup_candidates hend htop)
    fun x hx ↦ (hentries x hx).2
  have hids : (sel.map fun x ↦ (x.1, (all.map Prod.snd).getD x.2 0)).map Prod.snd =
      sel.map fun x ↦ (all.map Prod.snd).getD x.2 0 := by
    rw [List.map_map]
    rfl
  refine ⟨sel.map fun x ↦ (x.1, (all.map Prod.snd).getD x.2 0), ?_, ?_, ?_, ?_, ?_⟩
  · have hranks : ∀ rank ∈ List.range worldSize, (do
        let picked ← topk (block vLocal row rank) (min k vLocal)
        return picked.map fun x ↦ (x.1, (x.2 : ℤ) + (rankRange vLocal rank).start)) =
          Except.ok (rankCandidates vLocal rank (picked rank)) := by
      intro rank hrank
      rw [hok rank (List.mem_range.mp hrank)]
      rfl
    rw [topkPosition]
    dsimp only
    rw [mapM_pure_of_forall hranks]
    simp only [pure_bind, ← List.flatMap_def]
    rw [hsel]
    rfl
  · rw [List.length_map, hof.length_eq, hrow, Nat.mul_comm vLocal, Nat.max_eq_right hpos]
  · rw [hids]
    exact hnodup
  · intro x hx
    obtain ⟨y, hy, rfl⟩ := List.mem_map.mp hx
    exact hentries _ (hmem y hy)
  · rw [hids]
    intro x hx i v hv hnot
    obtain ⟨y, hy, rfl⟩ := List.mem_map.mp hx
    have hi : (i : ℤ) ∈ (Finset.range row.length).image fun i : ℕ ↦ (i : ℤ) :=
      Finset.mem_image_of_mem _ (Finset.mem_range.mpr (List.getElem?_eq_some_iff.mp hv).1)
    have hle := (isTop_whole d hrow htop hbest).le_of_not_mem _
      (List.mem_toFinset.mpr (List.mem_map_of_mem hy)) _ hi
      fun hmem ↦ hnot (List.mem_toFinset.mp hmem)
    rw [Int.toNat_natCast, List.getD_eq_getElem?_getD, hv, Option.getD_some,
      List.getD_eq_getElem?_getD, (hentries _ (hmem y hy)).2, Option.getD_some] at hle
    exact hle

theorem distributedVocabTopk_ok {full : List (List (List β))} {chunkSize : Option ℕ}
    {cpRank cpSize S : ℕ} (htopk : IsTopk topk) (hpos : 0 < worldSize * vLocal)
    (hrank : cpRank < cpSize) (hsplit : Splits cpSize (S * cpSize)) (hS : 0 < S)
    (hfull : ∀ rows ∈ full, rows.length = S * cpSize ∧
      ∀ row ∈ rows, row.length = worldSize * vLocal)
    (hchunk : ∀ c, chunkSize = some c → 0 < c) :
    ∃ out, distributedVocabTopk topk worldSize k (rankRange vLocal) chunkSize
      (fun tpRank ↦ shardLogits vLocal cpSize full tpRank cpRank) = .ok out ∧
        List.Forall₂ (fun rows sels ↦ List.Forall₂ (TopIds k)
          (getTokensOnThisCpRank cpRank cpSize rows) sels) full out := by
  have hcp : 0 < cpSize := Nat.zero_lt_of_lt hrank
  have hw : 0 < worldSize := Nat.pos_of_mul_pos_right hpos
  have hV : 0 < vLocal := Nat.pos_of_mul_pos_left hpos
  choose! selOf hsel using fun (row : List β) (hrow : row.length = worldSize * vLocal) ↦
    topkPosition_ok (k := k) htopk hpos hrow
  let share : List (List β) → List (List β) := getTokensOnThisCpRank cpRank cpSize
  have hlocal : ∀ rows ∈ full, (share rows).length = S ∧
      ∀ row ∈ share rows, row.length = worldSize * vLocal := by
    intro rows hrows
    obtain ⟨hlen, hrow⟩ := hfull rows hrows
    refine ⟨?_, fun row hmem ↦ hrow row (mem_of_mem_getTokens hmem)⟩
    rw [length_getTokensOnThisCpRank (hlen.symm ▸ hsplit) hrank, hlen, Nat.mul_div_cancel _ hcp]
  have hshard : ∀ tpRank, shardLogits vLocal cpSize full tpRank cpRank =
      full.map fun rows ↦ (share rows).map (block vLocal · tpRank) := by
    intro tpRank
    rw [shardLogits]
    exact List.map_congr_left fun rows _ ↦ (map_getTokensOnThisCpRank _ _).symm
  refine ⟨full.map fun rows ↦ (share rows).map selOf, ?_, ?_⟩
  · have hrow : ∀ b ∈ List.range full.length,
        overChunks chunkSize ((full.map fun rows ↦ (share rows).map (block vLocal · 0)).headD
          []).length (fun s0 s1 ↦ (List.range' s0 (s1 - s0)).mapM fun s ↦
            topkPosition topk worldSize k (((full.map fun rows ↦
              (share rows).map (block vLocal · 0)).headD []).headD []).length
              (rankRange vLocal) fun tpRank ↦ ((full.map fun rows ↦
                (share rows).map (block vLocal · tpRank)).getD b []).getD s []) =
          .ok ((share (full.getD b [])).map selOf) := by
      intro b hb
      have hlt := List.mem_range.mp hb
      obtain ⟨hlen, hrow⟩ := hlocal full[b] (List.getElem_mem hlt)
      have hwidth : ((full.map fun rows ↦ (share rows).map (block vLocal · 0)).headD
          []).length = S := by
        cases full with
        | nil => exact absurd hlt (Nat.not_lt_zero b)
        | cons rows full =>
          rw [List.map_cons, List.headD_cons, List.length_map]
          exact (hlocal rows (List.mem_cons_self ..)).1
      have hvocab : (((full.map fun rows ↦ (share rows).map (block vLocal · 0)).headD
          []).headD []).length = vLocal := by
        cases full with
        | nil => exact absurd hlt (Nat.not_lt_zero b)
        | cons rows full =>
          obtain ⟨hlen, hrow⟩ := hlocal rows (List.mem_cons_self ..)
          obtain ⟨row, hmem⟩ := List.exists_mem_of_length_pos (hlen.symm ▸ hS)
          cases heq : share rows with
          | nil =>
            rw [heq] at hmem
            cases hmem
          | cons first rest =>
            rw [List.map_cons, List.headD_cons, heq, List.map_cons, List.headD_cons, length_block]
            rw [hrow first (heq ▸ List.mem_cons_self ..)]
            exact Nat.mul_le_mul_right _ hw
      rw [hwidth, hvocab, List.getD_eq_getElem _ _ hlt]
      apply overChunks_ok hS hchunk
      · rw [List.length_map, hlen]
      · intro s0 s1 hs1
        have hposition : ∀ s ∈ List.range' s0 (s1 - s0), topkPosition topk worldSize k vLocal
            (rankRange vLocal) (fun tpRank ↦ ((full.map fun rows ↦
              (share rows).map (block vLocal · tpRank)).getD b []).getD s []) =
            .ok (((share full[b]).map selOf).getD s []) := by
          intro s hs
          have hs' : s < (share full[b]).length := by
            rw [hlen]
            have hbound := List.mem_range'_1.mp hs
            omega
          have hblock : ∀ tpRank, ((full.map fun rows ↦
              (share rows).map (block vLocal · tpRank)).getD b []).getD s [] =
                block vLocal (share full[b])[s] tpRank := by
            intro tpRank
            have hbatch : (full.map fun rows ↦ (share rows).map (block vLocal · tpRank)).getD b [] =
                (share full[b]).map (block vLocal · tpRank) := by
              rw [List.getD_eq_getElem _ _ (by rw [List.length_map]; exact hlt), List.getElem_map]
            rw [hbatch, List.getD_eq_getElem _ _ (by rw [List.length_map]; exact hs'),
              List.getElem_map]
          simp only [hblock]
          rw [List.getD_eq_getElem _ _ (by rw [List.length_map]; exact hs'), List.getElem_map]
          exact (hsel _ (hrow _ (List.getElem_mem hs'))).1
        rw [mapM_pure_of_forall hposition, slice_eq_map [] (by rw [List.length_map, hlen]; exact hs1),
          List.range'_eq_map_range, List.map_map]
        rfl
    rw [distributedVocabTopk, if_neg]
    · simp only [hshard, List.length_map]
      rw [mapM_pure_of_forall hrow]
      refine congrArg Except.ok (List.ext_getElem ?_ fun b hb hb' ↦ ?_)
      · rw [List.length_map, List.length_range, List.length_map]
      · rw [List.length_map] at hb'
        rw [List.getElem_map, List.getElem_range, List.getElem_map, List.getD_eq_getElem _ _ hb']
    · simp only [List.any_eq_true, List.mem_range, decide_eq_true_eq, not_exists, not_and, not_le]
      intro rank hr
      rw [rankRange, Nat.succ_mul]
      dsimp only
      push_cast
      omega
  · rw [List.forall₂_map_right_iff, List.forall₂_same]
    intro rows hrows
    rw [List.forall₂_map_right_iff, List.forall₂_same]
    exact fun row hrow ↦ (hsel row ((hlocal rows hrows).2 row hrow)).2

end Topk

section Exact

def entry (tensor : List (List (List γ))) (b s j : ℕ) : Option γ :=
  ((tensor.getD b []).getD s [])[j]?

def SameShape (tensor : List (List (List β))) (other : List (List (List γ))) : Prop :=
  tensor.map (·.map List.length) = other.map (·.map List.length)

variable [NonAssocSemiring R]

theorem sameShape_gatherIds {full : List (List (List R))} {globalIndices : List (List (List ℤ))}
    (hbatch : full.length = globalIndices.length)
    (h : ∀ rows ∈ full, ∀ gi ∈ globalIndices, gi.length ≤ rows.length) :
    SameShape (List.zipWith (List.zipWith gatherIds) full globalIndices) globalIndices := by
  have hrow : ∀ (rows : List (List R)) (gi : List (List ℤ)), gi.length ≤ rows.length →
      (List.zipWith gatherIds rows gi).map List.length = gi.map List.length := by
    intro rows gi hle
    refine List.ext_getElem ?_ fun s hs hs' ↦ ?_
    · rw [List.length_map, List.length_map, List.length_zipWith, Nat.min_eq_right hle]
    · rw [List.getElem_map, List.getElem_map, List.getElem_zipWith, gatherIds, List.length_map]
  refine List.ext_getElem ?_ fun b hb hb' ↦ ?_
  · rw [List.length_map, List.length_map, List.length_zipWith, hbatch, Nat.min_self]
  · rw [List.getElem_map, List.getElem_map, List.getElem_zipWith]
    exact hrow _ _ (h _ (List.getElem_mem _) _ (List.getElem_mem _))

theorem entry_places {tensor : List (List (List γ))} {b s j : ℕ} {x : γ}
    (h : entry tensor b s j = some x) : ∃ (hb : b < tensor.length) (hs : s < tensor[b].length),
      tensor[b][s][j]? = some x := by
  rw [entry] at h
  have hb : b < tensor.length := by
    by_contra hge
    rw [List.getD_eq_default _ _ (Nat.le_of_not_lt hge)] at h
    cases h
  rw [List.getD_eq_getElem _ _ hb] at h
  have hs : s < tensor[b].length := by
    by_contra hge
    rw [List.getD_eq_default _ _ (Nat.le_of_not_lt hge)] at h
    cases h
  rw [List.getD_eq_getElem _ _ hs] at h
  exact ⟨hb, hs, h⟩

theorem entry_gatherIds {full : List (List (List R))} {globalIndices : List (List (List ℤ))}
    {b s j n : ℕ} {id : ℤ} (hbatch : full.length = globalIndices.length)
    (h : ∀ rows ∈ full, ∀ gi ∈ globalIndices, gi.length ≤ rows.length)
    (hrows : ∀ rows ∈ full, ∀ row ∈ rows, row.length = n) (hlt : id.toNat < n)
    (hid : entry globalIndices b s j = some id) :
    entry (List.zipWith (List.zipWith gatherIds) full globalIndices) b s j =
      entry full b s id.toNat := by
  obtain ⟨hb, hs, hj⟩ := entry_places hid
  have hb' : b < full.length := hbatch ▸ hb
  have hs' : s < full[b].length :=
    hs.trans_le (h _ (List.getElem_mem hb') _ (List.getElem_mem hb))
  have hwidth := hrows _ (List.getElem_mem hb') _ (List.getElem_mem hs')
  have hbz : b < (List.zipWith (List.zipWith gatherIds) full globalIndices).length := by
    rw [List.length_zipWith]
    exact Nat.lt_min.mpr ⟨hb', hb⟩
  have hsz : s < (List.zipWith gatherIds full[b] globalIndices[b]).length := by
    rw [List.length_zipWith]
    exact Nat.lt_min.mpr ⟨hs', hs⟩
  rw [entry, entry, List.getD_eq_getElem _ _ hbz, List.getElem_zipWith,
    List.getD_eq_getElem _ _ hsz, List.getElem_zipWith, List.getD_eq_getElem _ _ hb',
    List.getD_eq_getElem _ _ hs', gatherIds, List.getElem?_map, hj, Option.map_some,
    List.getD_eq_getElem?_getD, List.getElem?_eq_getElem (hwidth.symm ▸ hlt), Option.getD_some]

/-- Whatever the group sizes and the chunks, the sharded gather gives the full-vocabulary logits at
the indices of the real positions, in the order of the sequence, and the sharded top-k of each
position is one of its whole vocabulary. -/
theorem sharded_vocab_exact [LinearOrder R] {topk : Topk R} (htopk : IsTopk topk)
    {tpGroup cpGroup chunkSize : Option ℕ} {vLocal S k : ℕ} {full : List (List (List R))}
    (hw : 0 < tpGroup.getD 1) (hcp : 0 < cpGroup.getD 1) (hvocab : 0 < vLocal)
    (hsplit : Splits (cpGroup.getD 1) (S * cpGroup.getD 1))
    (hfull : ∀ rows ∈ full, rows.length = S * cpGroup.getD 1 ∧
      ∀ row ∈ rows, row.length = tpGroup.getD 1 * vLocal)
    (hchunk : ∀ c, chunkSize = some c → 0 < c) :
    (∀ (globalIndices : List (List (List ℤ))) (seqLen : ℕ),
      full.length = globalIndices.length →
      (∀ gi ∈ globalIndices, gi.length = seqLen ∧ ∀ ids ∈ gi, ids.length = k ∧
        ∀ i ∈ ids, 0 ≤ i ∧ i < (tpGroup.getD 1 * vLocal : ℕ)) →
      0 < seqLen → seqLen ≤ S * cpGroup.getD 1 →
      ∃ out, gatherLogitsAtGlobalIndices tpGroup cpGroup chunkSize (rankRange vLocal)
          (shardLogits vLocal (cpGroup.getD 1) full) globalIndices = .ok out ∧
        SameShape out globalIndices ∧
        ∀ b s j id, entry globalIndices b s j = some id →
          entry out b s j = entry full b s id.toNat) ∧
    (0 < S → ∀ cpRank < cpGroup.getD 1,
      ∃ out, distributedVocabTopk topk (tpGroup.getD 1) k (rankRange vLocal) chunkSize
          (fun tpRank ↦ shardLogits vLocal (cpGroup.getD 1) full tpRank cpRank) = .ok out ∧
        List.Forall₂ (fun rows sels ↦ List.Forall₂ (TopIds k)
          (getTokensOnThisCpRank cpRank (cpGroup.getD 1) rows) sels) full out) := by
  constructor
  · intro globalIndices seqLen hbatch hindices hpos hle
    have hlengths : ∀ rows ∈ full, ∀ gi ∈ globalIndices, gi.length ≤ rows.length := by
      intro rows hrows gi hgi
      rw [(hfull rows hrows).1, (hindices gi hgi).1]
      exact hle
    refine ⟨_, gatherLogits_ok hw hcp hsplit hfull hbatch hindices hpos hle hchunk,
      sameShape_gatherIds hbatch hlengths, fun b s j id hid ↦ ?_⟩
    refine entry_gatherIds hbatch hlengths (fun rows hrows ↦ (hfull rows hrows).2) ?_ hid
    obtain ⟨hb, hs, hj⟩ := entry_places hid
    obtain ⟨h0, hlt⟩ := ((hindices _ (List.getElem_mem hb)).2 _ (List.getElem_mem hs)).2 id
      (List.mem_of_getElem? hj)
    omega
  · intro hS cpRank hrank
    exact distributedVocabTopk_ok htopk (Nat.mul_pos hw hvocab) hrank hsplit hS hfull hchunk

def topkSort [LinearOrder R] (row : List R) (k : ℕ) : Except VocabError (List (R × ℕ)) :=
  if k ≤ row.length then .ok ((row.zipIdx.mergeSort (·.1 ≥ ·.1)).take k)
  else .error (.topk k row.length)

omit [NonAssocSemiring R] in
theorem isTopk_topkSort [LinearOrder R] : IsTopk (@topkSort R _) := by
  intro row k hk
  have hperm := List.mergeSort_perm row.zipIdx (·.1 ≥ ·.1)
  have hsorted : (row.zipIdx.mergeSort (·.1 ≥ ·.1)).Pairwise fun a b ↦ b.1 ≤ a.1 := by
    refine (List.pairwise_mergeSort (fun a b c hab hbc ↦ ?_) (fun a b ↦ ?_) _).imp
      fun h ↦ of_decide_eq_true h
    · exact decide_eq_true ((of_decide_eq_true hbc).trans (of_decide_eq_true hab))
    · simpa using le_total b.1 a.1
  refine ⟨_, if_pos hk, ?_, ?_, ?_, ?_⟩
  · rw [List.length_take, hperm.length_eq, List.length_zipIdx, Nat.min_eq_left hk]
  · intro x hx
    exact List.mem_zipIdx_iff_getElem?.mp (hperm.mem_iff.mp (List.mem_of_mem_take hx))
  · have hnodup : ((row.zipIdx.mergeSort (·.1 ≥ ·.1)).map Prod.snd).Nodup := by
      rw [(hperm.map Prod.snd).nodup_iff, List.zipIdx_map_snd]
      exact List.nodup_range'
    rw [List.map_take]
    exact hnodup.sublist (List.take_sublist _ _)
  · intro x hx i v hv hnot
    have hmem : (v, i) ∈ row.zipIdx.mergeSort (·.1 ≥ ·.1) :=
      hperm.mem_iff.mpr (List.mem_zipIdx_iff_getElem?.mpr hv)
    rw [← List.take_append_drop k (row.zipIdx.mergeSort (·.1 ≥ ·.1))] at hmem hsorted
    rcases List.mem_append.mp hmem with htake | hdrop
    · exact absurd (List.mem_map_of_mem htake) hnot
    · exact (List.pairwise_append.mp hsorted).2.2 x hx (v, i) hdrop

def fourPositions : List (List (List ℤ)) :=
  [[[0, 1, 2, 3], [13, 12, 11, 10], [20, 21, 22, 23], [30, 31, 32, 33]]]

/-- Two tensor parallel and two context parallel ranks, and a padded position. -/
theorem sharded_vocab_exact_two :
    (∃ out, gatherLogitsAtGlobalIndices (some 2) (some 2) (some 1) (rankRange 2)
        (shardLogits 2 2 fourPositions) [[[3, 0], [1, 2], [2, 2]]] = .ok out ∧
      entry out 0 1 1 = some 11) ∧
    ∃ out, distributedVocabTopk topkSort 2 2 (rankRange 2) (some 1)
      (fun tpRank ↦ shardLogits 2 2 fourPositions tpRank 1) = .ok out := by
  have hexact := @sharded_vocab_exact ℤ _ _ topkSort isTopk_topkSort (some 2) (some 2) (some 1) 2 2
    2 fourPositions (by decide) (by decide) (by decide) (fun _ ↦ by decide) (by decide)
    (fun c hc ↦ by cases hc; decide)
  constructor
  · obtain ⟨out, hout, -, hentry⟩ := hexact.1 [[[3, 0], [1, 2], [2, 2]]] 3 rfl (by decide)
      (by decide) (by decide)
    exact ⟨out, hout, (hentry 0 1 1 2 rfl).trans rfl⟩
  · obtain ⟨out, hout, -⟩ := hexact.2 (by decide) 1 (by decide)
    exact ⟨out, hout⟩

end Exact

end NemoRL.Distributed.VocabShards
