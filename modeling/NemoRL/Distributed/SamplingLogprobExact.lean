import Mathlib
import NemoRL.Distributed.SamplingLogprob

namespace NemoRL.Distributed.ModelUtils

open Foundations.Blocks

variable {α β : Type}

def fullRow (worldSize vLocal : ℕ) (logits : ℕ → List α) (position : ℕ) : List α :=
  (List.range worldSize).flatMap fun rank ↦ block vLocal (logits rank) position

section Collectives

variable {worldSize m vLocal : ℕ} {logits : ℕ → List α}

theorem length_fullRow {n position : ℕ} (h : ∀ rank < worldSize, (logits rank).length = n * vLocal)
    (hp : position < n) : (fullRow worldSize vLocal logits position).length = worldSize * vLocal := by
  apply length_flatMap_range
  intro rank hr
  apply length_block
  rw [h rank hr]
  exact Nat.mul_le_mul_right vLocal hp

/-- What a rank sends to another is a block of the positions of its own part of the vocabulary. -/
theorem allToAllSingle_eq (hw : 0 < worldSize) {c : ℕ}
    (h : ∀ rank < worldSize, (logits rank).length = worldSize * c) (rank : ℕ) :
    allToAllSingle worldSize logits rank =
      (List.range worldSize).flatMap fun source ↦ block c (logits source) rank := by
  apply List.flatMap_congr
  intro source hs
  rw [h source (List.mem_range.mp hs), Nat.mul_div_cancel_left c hw]

theorem allToAllVp2sq_eq (hw : 0 < worldSize)
    (h : ∀ rank < worldSize, (logits rank).length = worldSize * m * vLocal) :
    ∃ rowsOf, allToAllVp2sq worldSize (worldSize * m) vLocal logits = .ok rowsOf ∧
      ∀ rank < worldSize, rowsOf rank =
        (List.range m).flatMap fun i ↦ fullRow worldSize vLocal logits (rank * m + i) := by
  have hdiv : worldSize * m / worldSize = m := Nat.mul_div_cancel_left m hw
  have hlen : ∀ rank < worldSize, (logits rank).length = worldSize * (m * vLocal) := by
    intro rank hr
    rw [h rank hr, Nat.mul_assoc]
  refine ⟨_, if_neg (not_not.mpr (Nat.mul_mod_right worldSize m)), ?_⟩
  intro rank hr
  have hblocks : ∀ source < worldSize,
      (block (m * vLocal) (logits source) rank).length = m * vLocal := by
    intro source hs
    apply length_block
    rw [hlen source hs]
    exact Nat.mul_le_mul_right _ hr
  rw [hdiv, allToAllSingle_eq hw hlen]
  apply List.flatMap_congr
  intro i hi
  apply List.flatMap_congr
  intro source hs
  rw [block_flatMap hblocks (List.mem_range.mp hs) (List.mem_range.mp hi),
    block_block (List.mem_range.mp hi)]

theorem place_lt {rank i : ℕ} (hr : rank < worldSize) (hi : i < m) :
    rank * m + i < worldSize * m := by
  have hle : (rank + 1) * m ≤ worldSize * m := Nat.mul_le_mul_right m hr
  rw [Nat.succ_mul] at hle
  omega

/-- Every rank receives its part of the vocabulary of every row, in the order of the positions. -/
theorem allToAllSq2vp_eq (hw : 0 < worldSize) {rowOf : ℕ → List α}
    (hrow : ∀ p < worldSize * m, (rowOf p).length = worldSize * vLocal) {parts : ℕ → List α}
    (hparts : ∀ rank < worldSize, parts rank = (List.range m).flatMap fun i ↦ rowOf (rank * m + i)) :
    ∃ shards, allToAllSq2vp worldSize m (worldSize * vLocal) parts = .ok shards ∧
      ∀ rank < worldSize, shards rank =
        (List.range (worldSize * m)).flatMap fun p ↦ block vLocal (rowOf p) rank := by
  have hdiv : worldSize * vLocal / worldSize = vLocal := Nat.mul_div_cancel_left vLocal hw
  -- The rows of a rank, cut into one block for each rank of the vocabulary.
  have hsent : ∀ rank < worldSize, permute102 m worldSize vLocal (parts rank) =
      (List.range worldSize).flatMap fun j ↦ (List.range m).flatMap fun i ↦
        block vLocal (rowOf (rank * m + i)) j := by
    intro rank hr
    apply List.flatMap_congr
    intro j hj
    apply List.flatMap_congr
    intro i hi
    rw [hparts rank hr]
    apply block_flatMap (fun i hi ↦ hrow _ (place_lt hr hi))
    · exact List.mem_range.mp hi
    · exact List.mem_range.mp hj
  have hblocks : ∀ rank < worldSize, ∀ j < worldSize, ((List.range m).flatMap fun i ↦
      block vLocal (rowOf (rank * m + i)) j).length = m * vLocal := by
    intro rank hr j hj
    apply length_flatMap_range
    intro i hi
    apply length_block
    rw [hrow _ (place_lt hr hi)]
    exact Nat.mul_le_mul_right _ hj
  have hlen : ∀ rank < worldSize,
      (permute102 m worldSize vLocal (parts rank)).length = worldSize * (m * vLocal) := by
    intro rank hr
    rw [hsent rank hr]
    exact length_flatMap_range (hblocks rank hr)
  refine ⟨_, if_neg (not_not.mpr (Nat.mul_mod_right worldSize vLocal)), ?_⟩
  intro rank hr
  rw [hdiv, allToAllSingle_eq hw hlen, flatMap_range_mul]
  apply List.flatMap_congr
  intro source hs
  rw [hsent source (List.mem_range.mp hs),
    block_flatMap_self (hblocks source (List.mem_range.mp hs)) hr]

end Collectives

section Local

variable {sampling : RowSampling α β} {worldSize m vLocal : ℕ} {logits : ℕ → List α}

theorem rows_flatMap {f : ℕ → List α} {c : ℕ} (hf : ∀ i < m, (f i).length = c) :
    rows m c ((List.range m).flatMap f) = (List.range m).map f := by
  apply List.map_congr_left
  intro i hi
  exact block_flatMap_self hf (List.mem_range.mp hi)

theorem gather_ok {logProbs : List (List β)} {target : List ℕ}
    (h : ∀ x ∈ logProbs.zip target, x.2 < x.1.length) :
    ∃ out, gather logProbs target = .ok out ∧
      out.map some = (logProbs.zip target).map fun x ↦ x.1[x.2]? := by
  have hread : ∀ x ∈ logProbs.zip target, ∃ y, (x.1[x.2]?).elim
      (Except.error (SamplingError.gather x.2)) .ok = .ok y ∧ x.1[x.2]? = some y := by
    intro x hx
    rw [List.getElem?_eq_getElem (h x hx)]
    exact ⟨_, rfl, rfl⟩
  obtain ⟨out, hout, hall⟩ := mapM_ok hread
  exact ⟨out, hout, map_eq_map_of_forall₂ hall⟩

/-- The log probability that one position is given, with the log softmax of its whole row. -/
def tokenLogprob (sampling : RowSampling α β) (worldSize vLocal : ℕ) (logits : ℕ → List α)
    (target : List ℕ) (position : ℕ) : Option β :=
  (sampling.logProbs (fullRow worldSize vLocal logits position))[target.getD position 0]?

variable (sampling) in
theorem gathered {target : List ℕ}
    (h : ∀ rank < worldSize, (logits rank).length = worldSize * m * vLocal)
    (htarget : target.length = worldSize * m) (hvalid : ∀ t ∈ target, t < worldSize * vLocal)
    {rowsOf : ℕ → List α} (hrows : ∀ rank < worldSize, rowsOf rank =
      (List.range m).flatMap fun i ↦ fullRow worldSize vLocal logits (rank * m + i)) :
    ∃ tokens, (List.range worldSize).mapM (fun rank ↦
        gather ((rows m (worldSize * vLocal) (rowsOf rank)).map sampling.logProbs)
          (slice target (rank * m) ((rank + 1) * m))) = .ok tokens ∧
      ∀ rank, (allGather worldSize (fun rank ↦ tokens.getD rank []) rank).map some =
        (List.range (worldSize * m)).map
          (tokenLogprob sampling worldSize vLocal logits target) := by
  have hrank : ∀ rank ∈ List.range worldSize, ∃ out,
      gather ((rows m (worldSize * vLocal) (rowsOf rank)).map sampling.logProbs)
        (slice target (rank * m) ((rank + 1) * m)) = .ok out ∧
      out.map some = (List.range m).map fun i ↦
        tokenLogprob sampling worldSize vLocal logits target (rank * m + i) := by
    intro rank hr
    have hr' : rank < worldSize := List.mem_range.mp hr
    have hstop : (rank + 1) * m ≤ target.length := by
      rw [htarget]
      exact Nat.mul_le_mul_right m hr'
    have hlocal : slice target (rank * m) ((rank + 1) * m) =
        (List.range m).map fun i ↦ target.getD (rank * m + i) 0 := by
      rw [slice_eq_map 0 hstop, Nat.succ_mul, Nat.add_sub_cancel_left]
    have hzip : (((rows m (worldSize * vLocal) (rowsOf rank)).map sampling.logProbs).zip
        (slice target (rank * m) ((rank + 1) * m))) = (List.range m).map fun i ↦
          (sampling.logProbs (fullRow worldSize vLocal logits (rank * m + i)),
            target.getD (rank * m + i) 0) := by
      rw [hrows rank hr', rows_flatMap fun i hi ↦ length_fullRow h (place_lt hr' hi), hlocal,
        List.map_map, List.zip_map']
      rfl
    have hin : ∀ x ∈ ((rows m (worldSize * vLocal) (rowsOf rank)).map sampling.logProbs).zip
        (slice target (rank * m) ((rank + 1) * m)), x.2 < x.1.length := by
      intro x hx
      rw [hzip] at hx
      obtain ⟨i, hi, rfl⟩ := List.mem_map.mp hx
      have hplace := place_lt hr' (List.mem_range.mp hi)
      rw [RowSampling.logProbs, sampling.length_logSoftmax, length_fullRow h hplace,
        List.getD_eq_getElem _ _ (by rw [htarget]; exact hplace)]
      exact hvalid _ (List.getElem_mem _)
    obtain ⟨out, hout, hmap⟩ := gather_ok hin
    refine ⟨out, hout, ?_⟩
    rw [hmap, hzip, List.map_map]
    rfl
  obtain ⟨tokens, htokens, hall⟩ := mapM_ok hrank
  refine ⟨tokens, htokens, ?_⟩
  intro rank
  rw [allGather, List.map_flatMap, map_range_mul]
  apply List.flatMap_congr
  intro source hs
  have hs' : source < worldSize := List.mem_range.mp hs
  have hlt : source < tokens.length := by
    rw [← hall.length_eq, List.length_range]
    exact hs'
  have hget := List.forall₂_iff_get.mp hall
  rw [List.getD_eq_getElem _ _ hlt]
  have hsource := hget.2 source (by rw [List.length_range]; exact hs') hlt
  simpa using hsource

variable [Zero β] [One β] [Sub β] [Mul β]

def RowSampling.rowGradient (sampling : RowSampling α β) (row : List α) (target : ℕ)
    (gradOutput : β) : List β :=
  let gradLogits := chosenGradient ((sampling.logProbs row).map sampling.exp) target gradOutput
  sampling.keepMask.elim gradLogits fun mask ↦ maskGradient gradLogits (mask row)

theorem length_rowGradient (row : List α) (target : ℕ) (gradOutput : β) :
    (sampling.rowGradient row target gradOutput).length = row.length := by
  have hchosen : (chosenGradient ((sampling.logProbs row).map sampling.exp) target
      gradOutput).length = row.length := by
    rw [chosenGradient, List.length_map, List.length_zipIdx, List.length_map]
    exact sampling.length_logSoftmax row
  rw [RowSampling.rowGradient]
  cases hmask : sampling.keepMask with
  | none => exact hchosen
  | some mask =>
    rw [Option.elim_some, maskGradient, List.length_zipWith, hchosen,
      sampling.length_keepMask mask hmask, Nat.min_self]

def positionGradient (sampling : RowSampling α β) (worldSize vLocal : ℕ) (logits : ℕ → List α)
    (target : List ℕ) (gradOutput : List β) (position : ℕ) : List β :=
  sampling.rowGradient (fullRow worldSize vLocal logits position) (target.getD position 0)
    (gradOutput.getD position 0)

theorem zipWith_range_map {γ δ ε : Type*} (f : γ → δ → ε) (x : ℕ → γ) (y : ℕ → δ) (n : ℕ) :
    List.zipWith f ((List.range n).map x) ((List.range n).map y) =
      (List.range n).map fun i ↦ f (x i) (y i) := by
  rw [List.zipWith_map, List.zipWith_self]

theorem gradLogitsLocal_eq {v : ℕ} {f : ℕ → List α} (hf : ∀ i < m, (f i).length = v)
    (t : ℕ → ℕ) (g : ℕ → β) :
    gradLogitsLocal (saved sampling m v ((List.range m).flatMap f) ((List.range m).map t))
        ((List.range m).map g) =
      (List.range m).map fun i ↦ sampling.rowGradient (f i) (t i) (g i) := by
  have hchosen : List.zipWith (fun softmax (x : ℕ × β) ↦ chosenGradient softmax x.1 x.2)
      (((List.range m).map f).map fun row ↦ (sampling.logProbs row).map sampling.exp)
      (((List.range m).map t).zip ((List.range m).map g)) =
        (List.range m).map fun i ↦
          chosenGradient ((sampling.logProbs (f i)).map sampling.exp) (t i) (g i) := by
    rw [List.map_map, List.zip, zipWith_range_map, zipWith_range_map]
    rfl
  simp only [gradLogitsLocal, saved, rows_flatMap hf, hchosen]
  cases hmask : sampling.keepMask with
  | none => simp only [Option.map_none, Option.elim_none, RowSampling.rowGradient, hmask]
  | some mask =>
    simp only [Option.map_some, Option.elim_some, RowSampling.rowGradient, hmask, List.map_map,
      zipWith_range_map, Function.comp_apply]

variable (sampling) in
/-- What the ranks send back is the gradient of every position, each rank its own part
of the vocabulary. -/
theorem scattered (hw : 0 < worldSize) {target : List ℕ} {gradOutput : List β}
    (h : ∀ rank < worldSize, (logits rank).length = worldSize * m * vLocal)
    (htarget : target.length = worldSize * m) (hgrad : gradOutput.length = worldSize * m)
    {rowsOf : ℕ → List α} (hrows : ∀ rank < worldSize, rowsOf rank =
      (List.range m).flatMap fun i ↦ fullRow worldSize vLocal logits (rank * m + i)) :
    ∃ shards, allToAllSq2vp worldSize m (worldSize * vLocal) (fun rank ↦
        (gradLogitsLocal (saved sampling m (worldSize * vLocal) (rowsOf rank)
          (slice target (rank * m) ((rank + 1) * m)))
          (slice gradOutput (rank * m) ((rank + 1) * m))).flatten) = .ok shards ∧
      ∀ rank < worldSize, shards rank = (List.range (worldSize * m)).flatMap fun p ↦
        block vLocal (positionGradient sampling worldSize vLocal logits target gradOutput p)
          rank := by
  apply allToAllSq2vp_eq hw
  · intro p hp
    rw [positionGradient, length_rowGradient, length_fullRow h hp]
  · intro rank hr
    have hstop : (rank + 1) * m ≤ worldSize * m := Nat.mul_le_mul_right m hr
    have hsize : (rank + 1) * m - rank * m = m := by rw [Nat.succ_mul, Nat.add_sub_cancel_left]
    rw [hrows rank hr, slice_eq_map 0 (htarget ▸ hstop), slice_eq_map 0 (hgrad ▸ hstop), hsize,
      gradLogitsLocal_eq fun i hi ↦ length_fullRow h (place_lt hr hi), List.flatMap_def]
    rfl

end Local

section Chunks

open ChunkedDistributedLogprobWithSampling

variable {worldSize b s chunkSize : ℕ}

/-- Chunks that each give the values of their own positions give those of all positions. -/
theorem overChunks_ok {γ : Type} {width : ℕ → ℕ → List (Option γ)}
    {chunk : ℕ → ℕ → Except SamplingError (ℕ → List γ)} (hb : 0 < b) (hs : 0 < s)
    (hsize : 0 < chunkSize) (hdiv : b * s % worldSize = 0) (hchunk : chunkSize * b % worldSize = 0)
    (h : ∀ start stop, start ≤ stop → stop ≤ b * s → (stop - start) % worldSize = 0 →
      ∃ r, chunk start stop = .ok r ∧ ∀ rank < worldSize, (r rank).map some =
        (List.range (stop - start)).flatMap fun k ↦ width rank (start + k)) :
    ∃ out, overChunks b s chunkSize chunk = .ok out ∧ ∀ rank < worldSize,
      (out rank).map some = (List.range (b * s)).flatMap (width rank) := by
  have heffective : 0 < chunkSize * b := Nat.mul_pos hsize hb
  have hbs : 0 < b * s := Nat.mul_pos hb hs
  have hwindow : ∀ c ∈ List.range ((b * s + chunkSize * b - 1) / (chunkSize * b)), ∃ r,
      chunk (c * (chunkSize * b)) (min (b * s) ((c + 1) * (chunkSize * b))) = .ok r ∧
        ∀ rank < worldSize, (r rank).map some =
          (List.range (min (b * s) ((c + 1) * (chunkSize * b)) - c * (chunkSize * b))).flatMap
            fun k ↦ width rank (c * (chunkSize * b) + k) := by
    intro c hc
    have hstart := window_start_lt heffective (List.mem_range.mp hc)
    apply h
    · rw [Nat.succ_mul]
      omega
    · exact Nat.min_le_left _ _
    · apply Nat.mod_eq_zero_of_dvd
      exact dvd_window c (Nat.dvd_of_mod_eq_zero hdiv) (Nat.dvd_of_mod_eq_zero hchunk)
  obtain ⟨chunks, hchunks, hall⟩ := mapM_ok hwindow
  refine ⟨fun rank ↦ chunks.flatMap (· rank), ?_, ?_⟩
  · rw [overChunks, if_neg heffective.ne', if_neg hbs.ne']
    dsimp only [bind, Except.bind]
    rw [hchunks]
    rfl
  · intro rank hr
    have hparts : chunks.map (fun r ↦ (r rank).map some) =
        (List.range ((b * s + chunkSize * b - 1) / (chunkSize * b))).map fun c ↦
          (List.range (min (b * s) ((c + 1) * (chunkSize * b)) - c * (chunkSize * b))).flatMap
            fun k ↦ width rank (c * (chunkSize * b) + k) :=
      map_eq_map_of_forall₂ (hall.imp fun c r hr' ↦ (hr' rank hr).symm)
    rw [List.map_flatMap, List.flatMap_def, hparts, ← List.flatMap_def,
      ← flatMap_windows (b * s) heffective, List.flatMap_assoc]
    apply List.flatMap_congr
    intro c hc
    rw [List.flatMap_map]

variable {sampling : RowSampling α β} {vLocal m start stop : ℕ} {logits : ℕ → List α}
  {target : List ℕ}

theorem fullRow_slice (hstop : stop = start + worldSize * m) {k : ℕ} (hk : k < worldSize * m) :
    fullRow worldSize vLocal (fun rank ↦ slice (logits rank) (start * vLocal) (stop * vLocal)) k =
      fullRow worldSize vLocal logits (start + k) := by
  apply List.flatMap_congr
  intro rank hr
  apply block_slice
  omega

theorem tokenLogprob_slice (hstop : stop = start + worldSize * m) {k : ℕ}
    (hk : k < worldSize * m) :
    tokenLogprob sampling worldSize vLocal
        (fun rank ↦ slice (logits rank) (start * vLocal) (stop * vLocal))
        (slice target start stop) k =
      tokenLogprob sampling worldSize vLocal logits target (start + k) := by
  rw [tokenLogprob, tokenLogprob, fullRow_slice hstop hk, getD_slice (by omega)]

theorem length_chunk {n : ℕ} (h : ∀ rank < worldSize, (logits rank).length = n * vLocal)
    (hstop : stop = start + worldSize * m) (hn : stop ≤ n) : ∀ rank < worldSize,
      (slice (logits rank) (start * vLocal) (stop * vLocal)).length = worldSize * m * vLocal := by
  intro rank hr
  have hle : stop * vLocal ≤ (logits rank).length := by
    rw [h rank hr]
    exact Nat.mul_le_mul_right vLocal hn
  rw [length_slice hle, ← Nat.sub_mul, hstop, Nat.add_sub_cancel_left]

variable (sampling) in
theorem forwardChunk_ok (hw : 0 < worldSize) {n : ℕ}
    (h : ∀ rank < worldSize, (logits rank).length = n * vLocal) (htarget : target.length = n)
    (hvalid : ∀ t ∈ target, t < worldSize * vLocal) (hstop : stop = start + worldSize * m)
    (hn : stop ≤ n) :
    ∃ r, forwardChunk sampling worldSize vLocal logits target start stop = .ok r ∧
      ∀ rank, (r rank).map some = (List.range (worldSize * m)).map fun k ↦
        tokenLogprob sampling worldSize vLocal logits target (start + k) := by
  have hsize : stop - start = worldSize * m := by omega
  have hdiv : worldSize * m / worldSize = m := Nat.mul_div_cancel_left m hw
  have hlen := length_chunk h hstop hn
  obtain ⟨rowsOf, hok, hrows⟩ := allToAllVp2sq_eq hw hlen
  have hchunk : (slice target start stop).length = worldSize * m := by
    rw [length_slice (by omega), hsize]
  have hin : ∀ t ∈ slice target start stop, t < worldSize * vLocal := by
    intro t ht
    exact hvalid t (List.mem_of_mem_drop (List.mem_of_mem_take ht))
  obtain ⟨tokens, htokens, hall⟩ := gathered sampling hlen hchunk hin hrows
  refine ⟨fun rank ↦ allGather worldSize (fun rank ↦ tokens.getD rank []) rank, ?_, ?_⟩
  · rw [forwardChunk, hsize, hok]
    dsimp only [bind, Except.bind]
    rw [hdiv, htokens]
    rfl
  · intro rank
    rw [hall rank]
    apply List.map_congr_left
    intro k hk
    exact tokenLogprob_slice hstop (List.mem_range.mp hk)

variable [Zero β] [One β] [Sub β] [Mul β] {gradOutput : List β}

theorem positionGradient_slice (hstop : stop = start + worldSize * m) {k : ℕ}
    (hk : k < worldSize * m) :
    positionGradient sampling worldSize vLocal
        (fun rank ↦ slice (logits rank) (start * vLocal) (stop * vLocal))
        (slice target start stop) (slice gradOutput start stop) k =
      positionGradient sampling worldSize vLocal logits target gradOutput (start + k) := by
  rw [positionGradient, positionGradient, fullRow_slice hstop hk, getD_slice (by omega),
    getD_slice (by omega)]

variable (sampling) in
theorem backwardChunk_ok (hw : 0 < worldSize) {n : ℕ}
    (h : ∀ rank < worldSize, (logits rank).length = n * vLocal) (htarget : target.length = n)
    (hgrad : gradOutput.length = n) (hstop : stop = start + worldSize * m) (hn : stop ≤ n) :
    ∃ r, backwardChunk sampling worldSize vLocal logits target gradOutput start stop = .ok r ∧
      ∀ rank < worldSize, r rank = (List.range (worldSize * m)).flatMap fun k ↦
        block vLocal
          (positionGradient sampling worldSize vLocal logits target gradOutput (start + k))
          rank := by
  have hsize : stop - start = worldSize * m := by omega
  have hdiv : worldSize * m / worldSize = m := Nat.mul_div_cancel_left m hw
  have hlen := length_chunk h hstop hn
  obtain ⟨rowsOf, hok, hrows⟩ := allToAllVp2sq_eq hw hlen
  have htargets : (slice target start stop).length = worldSize * m := by
    rw [length_slice (by omega), hsize]
  have hgrads : (slice gradOutput start stop).length = worldSize * m := by
    rw [length_slice (by omega), hsize]
  obtain ⟨shards, hshards, hall⟩ :=
    scattered sampling hw hlen htargets hgrads hrows
  refine ⟨shards, ?_, ?_⟩
  · rw [backwardChunk, hsize, hok]
    dsimp only [bind, Except.bind]
    rw [hdiv, hshards]
  · intro rank hr
    rw [hall rank hr]
    apply List.flatMap_congr
    intro k hk
    rw [positionGradient_slice hstop (List.mem_range.mp hk)]

end Chunks

section Exact

variable {sampling : RowSampling α β} {worldSize b s vLocal : ℕ} {logits : ℕ → List α}
  {target : List ℕ}

/-- Every position holds the function of its whole row, evaluated at its own target. -/
def Evaluates (sampling : RowSampling α β) (worldSize b s vLocal : ℕ) (logits : ℕ → List α)
    (target : List ℕ) (tokenLogprobs : List β) : Prop :=
  tokenLogprobs.length = b * s ∧ ∀ i < b, ∀ j < s, ∀ t, target[i * s + j]? = some t →
    tokenLogprobs[i * s + j]? =
      (sampling.logProbs (fullRow worldSize vLocal logits (i * s + j)))[t]?

def Differentiates [Zero β] [One β] [Sub β] [Mul β] (sampling : RowSampling α β)
    (worldSize b s vLocal : ℕ) (logits : ℕ → List α) (target : List ℕ) (gradOutput : List β)
    (rank : ℕ) (gradInput : List β) : Prop :=
  gradInput.length = b * s * vLocal ∧ ∀ i < b, ∀ j < s, ∀ t g, target[i * s + j]? = some t →
    gradOutput[i * s + j]? = some g → ∀ v < vLocal,
      gradInput[(i * s + j) * vLocal + v]? =
        (sampling.rowGradient (fullRow worldSize vLocal logits (i * s + j)) t g)[
          rank * vLocal + v]?

theorem evaluates_of_map {tokens : List β}
    (h : tokens.map some =
      (List.range (b * s)).map (tokenLogprob sampling worldSize vLocal logits target)) :
    Evaluates sampling worldSize b s vLocal logits target tokens := by
  constructor
  · have hlen := congrArg List.length h
    rwa [List.length_map, List.length_map, List.length_range] at hlen
  · intro i hi j hj t ht
    have hget := congrArg (·[i * s + j]?) h
    simp only [List.getElem?_map, List.getElem?_range (place_lt hi hj), Option.map_some] at hget
    obtain ⟨x, hx, heq⟩ := Option.map_eq_some_iff.mp hget
    rw [hx, heq, tokenLogprob, List.getD_eq_getElem?_getD, ht, Option.getD_some]

variable (sampling) in
theorem forward_ok {m : ℕ} (hw : 0 < worldSize) (hm : b * s = worldSize * m)
    (h : ∀ rank < worldSize, (logits rank).length = b * s * vLocal)
    (htarget : target.length = b * s) (hvalid : ∀ t ∈ target, t < worldSize * vLocal) :
    ∃ (tokens : ℕ → List β) (rowsOf : ℕ → List α),
      DistributedLogprobWithSampling.forward sampling worldSize b s vLocal logits target =
        .ok (tokens, fun rank ↦ saved sampling m (worldSize * vLocal) (rowsOf rank)
          (slice target (rank * m) ((rank + 1) * m))) ∧
      (∀ rank, (tokens rank).map some =
        (List.range (b * s)).map (tokenLogprob sampling worldSize vLocal logits target)) ∧
      ∀ rank < worldSize, rowsOf rank =
        (List.range m).flatMap fun i ↦ fullRow worldSize vLocal logits (rank * m + i) := by
  have hbsLocal : worldSize * m / worldSize = m := Nat.mul_div_cancel_left m hw
  rw [hm] at h htarget
  obtain ⟨rowsOf, hok, hrows⟩ := allToAllVp2sq_eq hw h
  obtain ⟨tokens, htokens, hall⟩ := gathered sampling h htarget hvalid hrows
  refine ⟨fun rank ↦ allGather worldSize (fun rank ↦ tokens.getD rank []) rank, rowsOf, ?_, ?_,
    hrows⟩
  · rw [DistributedLogprobWithSampling.forward]
    simp only [hm, Nat.mul_mod_right, ne_eq, not_true_eq_false, if_false, hok]
    dsimp only [bind, Except.bind]
    rw [hbsLocal, htokens]
    rfl
  · intro rank
    rw [hall rank, hm]

variable (sampling) in
theorem chunked_forward_ok (hw : 0 < worldSize) {chunkSize : ℕ} (hsize : 0 < chunkSize) (hb : 0 < b)
    (hs : 0 < s) (hdiv : b * s % worldSize = 0) (hchunk : chunkSize * b % worldSize = 0)
    (h : ∀ rank < worldSize, (logits rank).length = b * s * vLocal)
    (htarget : target.length = b * s) (hvalid : ∀ t ∈ target, t < worldSize * vLocal) :
    ∃ tokens, ChunkedDistributedLogprobWithSampling.forward sampling worldSize b s vLocal
        chunkSize logits target = .ok tokens ∧
      ∀ rank < worldSize, (tokens rank).map some =
        (List.range (b * s)).map (tokenLogprob sampling worldSize vLocal logits target) := by
  let width : ℕ → ℕ → List (Option β) := fun _ p ↦
    [tokenLogprob sampling worldSize vLocal logits target p]
  have hwindow : ∀ start stop, start ≤ stop → stop ≤ b * s → (stop - start) % worldSize = 0 →
      ∃ r, ChunkedDistributedLogprobWithSampling.forwardChunk sampling worldSize vLocal logits
          target start stop = .ok r ∧ ∀ rank < worldSize, (r rank).map some =
            (List.range (stop - start)).flatMap fun k ↦ width rank (start + k) := by
    intro start stop hle hstop hmod
    obtain ⟨m, hm⟩ := Nat.dvd_of_mod_eq_zero hmod
    obtain ⟨r, hr, hall⟩ := forwardChunk_ok sampling hw h htarget hvalid
      (by omega : stop = start + worldSize * m) hstop
    refine ⟨r, hr, ?_⟩
    intro rank _
    rw [hall rank, hm, List.map_eq_flatMap]
  obtain ⟨tokens, hok, hall⟩ := overChunks_ok hb hs hsize hdiv hchunk hwindow
  refine ⟨tokens, ?_, ?_⟩
  · rw [ChunkedDistributedLogprobWithSampling.forward, if_neg (not_not.mpr hdiv),
      if_neg (not_not.mpr hchunk), hok]
  · intro rank hr
    rw [hall rank hr, List.map_eq_flatMap]

theorem allToAllSq2vp_vp2sq (hw : 0 < worldSize) {m : ℕ}
    (h : ∀ rank < worldSize, (logits rank).length = worldSize * m * vLocal) :
    ∃ rowsOf, allToAllVp2sq worldSize (worldSize * m) vLocal logits = .ok rowsOf ∧
      ∃ shards, allToAllSq2vp worldSize m (worldSize * vLocal) rowsOf = .ok shards ∧
        ∀ rank < worldSize, shards rank = logits rank := by
  obtain ⟨rowsOf, hok, hrows⟩ := allToAllVp2sq_eq hw h
  obtain ⟨shards, hshards, hall⟩ := allToAllSq2vp_eq hw (fun p hp ↦ length_fullRow h hp) hrows
  refine ⟨rowsOf, hok, shards, hshards, ?_⟩
  intro rank hr
  rw [hall rank hr]
  refine Eq.trans ?_ (flatMap_block (h rank hr))
  apply List.flatMap_congr
  intro p hp
  apply block_flatMap_self ?_ hr
  intro source hs
  apply length_block
  rw [h source hs]
  exact Nat.mul_le_mul_right _ (List.mem_range.mp hp)

theorem allToAllVp2sq_sq2vp (hw : 0 < worldSize) {m : ℕ} {parts : ℕ → List α}
    (h : ∀ rank < worldSize, (parts rank).length = m * (worldSize * vLocal)) :
    ∃ shards, allToAllSq2vp worldSize m (worldSize * vLocal) parts = .ok shards ∧
      ∃ rowsOf, allToAllVp2sq worldSize (worldSize * m) vLocal shards = .ok rowsOf ∧
        ∀ rank < worldSize, rowsOf rank = parts rank := by
  -- The rows of the ranks, numbered through.
  let rowOf : ℕ → List α := fun p ↦ block (worldSize * vLocal) (parts (p / m)) (p % m)
  have hplace : ∀ rank i, i < m → rowOf (rank * m + i) = block (worldSize * vLocal) (parts rank) i := by
    intro rank i hi
    have hdiv : (rank * m + i) / m = rank := by
      rw [Nat.mul_comm, Nat.mul_add_div (by omega), Nat.div_eq_of_lt hi, Nat.add_zero]
    have hmod : (rank * m + i) % m = i := by
      rw [Nat.mul_comm, Nat.mul_add_mod, Nat.mod_eq_of_lt hi]
    simp only [rowOf, hdiv, hmod]
  have hrow : ∀ p < worldSize * m, (rowOf p).length = worldSize * vLocal := by
    intro p hp
    have hpos : 0 < m := Nat.pos_of_ne_zero fun h0 ↦ by simp [h0] at hp
    have hrank : p / m < worldSize := Nat.div_lt_of_lt_mul (by rwa [Nat.mul_comm])
    apply length_block
    rw [h _ hrank]
    exact Nat.mul_le_mul_right _ (Nat.mod_lt p hpos)
  have hparts : ∀ rank < worldSize,
      parts rank = (List.range m).flatMap fun i ↦ rowOf (rank * m + i) := by
    intro rank hr
    refine (flatMap_block (h rank hr)).symm.trans ?_
    apply List.flatMap_congr
    intro i hi
    rw [hplace rank i (List.mem_range.mp hi)]
  obtain ⟨shards, hshards, hall⟩ := allToAllSq2vp_eq hw hrow hparts
  have hblocks : ∀ rank < worldSize, ∀ p < worldSize * m,
      (block vLocal (rowOf p) rank).length = vLocal := by
    intro rank hr p hp
    apply length_block
    rw [hrow p hp]
    exact Nat.mul_le_mul_right _ hr
  have hlen : ∀ rank < worldSize, (shards rank).length = worldSize * m * vLocal := by
    intro rank hr
    rw [hall rank hr]
    exact length_flatMap_range (hblocks rank hr)
  obtain ⟨rowsOf, hok, hrows⟩ := allToAllVp2sq_eq hw hlen
  refine ⟨shards, hshards, rowsOf, hok, ?_⟩
  intro rank hr
  rw [hrows rank hr, hparts rank hr]
  apply List.flatMap_congr
  intro i hi
  have hp := place_lt hr (List.mem_range.mp hi)
  refine Eq.trans ?_ (flatMap_block (hrow _ hp))
  apply List.flatMap_congr
  intro source hs
  rw [hall source (List.mem_range.mp hs)]
  exact block_flatMap_self (hblocks source (List.mem_range.mp hs)) hp

variable [Zero β] [One β] [Sub β] [Mul β] {gradOutput : List β}

variable (sampling) in
theorem chunked_backward_ok (hw : 0 < worldSize) {chunkSize : ℕ} (hsize : 0 < chunkSize) (hb : 0 < b)
    (hs : 0 < s) (hdiv : b * s % worldSize = 0) (hchunk : chunkSize * b % worldSize = 0)
    (h : ∀ rank < worldSize, (logits rank).length = b * s * vLocal)
    (htarget : target.length = b * s) (hgrad : gradOutput.length = b * s) :
    ∃ gradInput, ChunkedDistributedLogprobWithSampling.backward sampling worldSize b s vLocal
        chunkSize logits target gradOutput = .ok gradInput ∧
      ∀ rank < worldSize, gradInput rank = (List.range (b * s)).flatMap fun p ↦ block vLocal
        (positionGradient sampling worldSize vLocal logits target gradOutput p) rank := by
  let width : ℕ → ℕ → List (Option β) := fun rank p ↦ (block vLocal
    (positionGradient sampling worldSize vLocal logits target gradOutput p) rank).map some
  have hwindow : ∀ start stop, start ≤ stop → stop ≤ b * s → (stop - start) % worldSize = 0 →
      ∃ r, ChunkedDistributedLogprobWithSampling.backwardChunk sampling worldSize vLocal logits
          target gradOutput start stop = .ok r ∧ ∀ rank < worldSize, (r rank).map some =
            (List.range (stop - start)).flatMap fun k ↦ width rank (start + k) := by
    intro start stop hle hstop hmod
    obtain ⟨m, hm⟩ := Nat.dvd_of_mod_eq_zero hmod
    obtain ⟨r, hr, hall⟩ := backwardChunk_ok sampling hw h htarget hgrad
      (by omega : stop = start + worldSize * m) hstop
    refine ⟨r, hr, ?_⟩
    intro rank hrank
    rw [hall rank hrank, hm, List.map_flatMap]
  obtain ⟨gradInput, hok, hall⟩ := overChunks_ok hb hs hsize hdiv hchunk hwindow
  refine ⟨gradInput, hok, ?_⟩
  intro rank hr
  apply List.map_injective_iff.mpr (Option.some_injective β)
  rw [hall rank hr, List.map_flatMap]

theorem differentiates_of_flatMap {gradInput : List β} {rank : ℕ} (hr : rank < worldSize)
    (hlogits : ∀ rank < worldSize, (logits rank).length = b * s * vLocal)
    (h : gradInput = (List.range (b * s)).flatMap fun p ↦ block vLocal
      (positionGradient sampling worldSize vLocal logits target gradOutput p) rank) :
    Differentiates sampling worldSize b s vLocal logits target gradOutput rank gradInput := by
  have hblocks : ∀ p < b * s, (block vLocal
      (positionGradient sampling worldSize vLocal logits target gradOutput p) rank).length =
        vLocal := by
    intro p hp
    apply length_block
    rw [positionGradient, length_rowGradient, length_fullRow hlogits hp]
    exact Nat.mul_le_mul_right _ hr
  constructor
  · rw [h]
    exact length_flatMap_range hblocks
  · intro i hi j hj t g ht hg v hv
    rw [h, getElem?_flatMap_range hblocks (place_lt hi hj) hv, getElem?_block hv, positionGradient,
      List.getD_eq_getElem?_getD, List.getD_eq_getElem?_getD, ht, hg, Option.getD_some,
      Option.getD_some]

end Exact

/-- On every rank, the sampling log probabilities and their gradients are those of the whole
vocabulary row of each position, in one piece or in chunks, and the two exchanges undo each other. -/
theorem sampling_logprobs_exact [Zero β] [One β] [Sub β] [Mul β] (sampling : RowSampling α β)
    (worldSize b s vLocal : ℕ) (hw : 0 < worldSize) (hdiv : b * s % worldSize = 0)
    (logits : ℕ → List α) (hlogits : ∀ rank < worldSize, (logits rank).length = b * s * vLocal)
    (target : List ℕ) (htarget : target.length = b * s)
    (hvalid : ∀ t ∈ target, t < worldSize * vLocal)
    (gradOutput : List β) (hgrad : gradOutput.length = b * s) :
    (∃ tokens ctx gradInput,
      DistributedLogprobWithSampling.forward sampling worldSize b s vLocal logits target =
        .ok (tokens, ctx) ∧
      DistributedLogprobWithSampling.backward worldSize b s vLocal ctx gradOutput =
        .ok gradInput ∧
      ∀ rank < worldSize, Evaluates sampling worldSize b s vLocal logits target (tokens rank) ∧
        Differentiates sampling worldSize b s vLocal logits target gradOutput rank
          (gradInput rank)) ∧
    (∀ chunkSize, 0 < chunkSize → 0 < b → 0 < s → chunkSize * b % worldSize = 0 →
      ∃ tokens gradInput,
        ChunkedDistributedLogprobWithSampling.forward sampling worldSize b s vLocal chunkSize
          logits target = .ok tokens ∧
        ChunkedDistributedLogprobWithSampling.backward sampling worldSize b s vLocal chunkSize
          logits target gradOutput = .ok gradInput ∧
        ∀ rank < worldSize, Evaluates sampling worldSize b s vLocal logits target (tokens rank) ∧
          Differentiates sampling worldSize b s vLocal logits target gradOutput rank
            (gradInput rank)) ∧
    (∃ rowsOf, allToAllVp2sq worldSize (b * s) vLocal logits = .ok rowsOf ∧
      ∃ shards, allToAllSq2vp worldSize (b * s / worldSize) (worldSize * vLocal) rowsOf =
          .ok shards ∧ ∀ rank < worldSize, shards rank = logits rank) ∧
    ∀ parts : ℕ → List α,
      (∀ rank < worldSize, (parts rank).length = b * s / worldSize * (worldSize * vLocal)) →
      ∃ shards, allToAllSq2vp worldSize (b * s / worldSize) (worldSize * vLocal) parts =
          .ok shards ∧
        ∃ rowsOf, allToAllVp2sq worldSize (b * s) vLocal shards = .ok rowsOf ∧
          ∀ rank < worldSize, rowsOf rank = parts rank := by
  obtain ⟨m, hm⟩ := Nat.dvd_of_mod_eq_zero hdiv
  have hbsLocal : b * s / worldSize = m := by rw [hm, Nat.mul_div_cancel_left m hw]
  have hlogits' := hlogits
  rw [hm] at hlogits'
  refine ⟨?_, ?_, ?_, ?_⟩
  · obtain ⟨tokens, rowsOf, hforward, htokens, hrows⟩ :=
      forward_ok sampling hw hm hlogits htarget hvalid
    obtain ⟨gradInput, hbackward, hparts⟩ := scattered sampling hw hlogits'
      (hm ▸ htarget) (hm ▸ hgrad) hrows
    refine ⟨tokens, _, gradInput, hforward, ?_, ?_⟩
    · rw [DistributedLogprobWithSampling.backward, hbsLocal]
      exact hbackward
    · intro rank hr
      refine ⟨evaluates_of_map (htokens rank), differentiates_of_flatMap hr hlogits ?_⟩
      rw [hparts rank hr, hm]
  · intro chunkSize hsize hb hs hchunk
    obtain ⟨tokens, hforward, htokens⟩ := chunked_forward_ok sampling hw hsize hb hs
      hdiv hchunk hlogits htarget hvalid
    obtain ⟨gradInput, hbackward, hparts⟩ := chunked_backward_ok sampling hw hsize
      hb hs hdiv hchunk hlogits htarget hgrad
    refine ⟨tokens, gradInput, hforward, hbackward, ?_⟩
    intro rank hr
    exact ⟨evaluates_of_map (htokens rank hr),
      differentiates_of_flatMap hr hlogits (hparts rank hr)⟩
  · rw [hbsLocal, hm]
    exact allToAllSq2vp_vp2sq hw hlogits'
  · rw [hbsLocal, hm]
    intro parts hparts
    exact allToAllVp2sq_sq2vp hw hparts

def keepAll : RowSampling ℤ ℤ where
  applyTopKTopP row := row
  keepMask := some fun row ↦ row.map fun _ ↦ true
  logSoftmax row := row
  exp x := x
  length_logSoftmax _ := rfl
  length_keepMask := by
    intro mask hmask row
    obtain rfl := Option.some.inj hmask
    exact List.length_map _

theorem sampling_logprobs_exact_two : Evaluates keepAll 2 1 2 1
    (fun rank ↦ if rank = 0 then [10, 20] else [11, 21]) [1, 0] [11, 20] := by
  have hexact := sampling_logprobs_exact keepAll 2 1 2 1 (by decide) (by decide)
    (fun rank ↦ if rank = 0 then [10, 20] else [11, 21]) (by decide) [1, 0] (by decide) (by decide)
    [1, 1] (by decide)
  obtain ⟨⟨tokens, ctx, gradInput, hforward, -, hall⟩, -⟩ := hexact
  have htokens := congrArg (fun r ↦ r.toOption.map fun out ↦ out.1 0) hforward
  have hvalue : tokens 0 = [11, 20] := (Option.some.inj htokens).symm
  exact hvalue ▸ (hall 0 (by decide)).1

end NemoRL.Distributed.ModelUtils
