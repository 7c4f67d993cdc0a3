import Mathlib
import NemoRL.Distributed.ContextParallelExact

namespace NemoRL.XToken.ChunkAverages

open Foundations.Blocks Distributed.ContextParallel

variable {α K : Type} {V B : ℕ}

inductive ChunkError
  /-- A position of a sequence that has none. -/
  | index
  /-- `torch.bmm` of chunk ids and log-probabilities of different lengths. -/
  | shape
  deriving DecidableEq, Repr

section Relayout

/-! The tensors of a context parallel group, by rank: one sequence, position by position. -/

def cpLoadBalancedToContiguous (cpGroup : Option ℕ) (x : ℕ → List α) (cpRank : ℕ) : List α :=
  let cpSize := cpGroup.getD 1
  if cpSize ≤ 1 then x cpRank
  else
    let full := allgatherCpShardedTensor cpSize x
    let localLen := full.length / cpSize
    slice full (cpRank * localLen) (cpRank * localLen + localLen)

def setLast (out : List α) (value : α) : Except ChunkError (List α) :=
  if out = [] then .error .index else .ok (out.dropLast ++ [value])

def first (x : List α) : Except ChunkError α := (x.head?.map .ok).getD (.error .index)

/-- Next-token shift: the last position of a rank takes the first of the next, and the last of all
takes `fill`. -/
def cpShiftNext (cpGroup : Option ℕ) (fill : α) (x : ℕ → List α) (cpRank : ℕ) :
    Except ChunkError (List α) := do
  let out := (x cpRank).rotate 1
  let cpSize := cpGroup.getD 1
  if cpSize ≤ 1 then setLast out fill
  else
    let gathered ← (List.range cpSize).mapM fun rank ↦ first (x rank)
    setLast out (if cpRank < cpSize - 1 then gathered.getD (cpRank + 1) fill else fill)

end Relayout

section Alignment

/-- The chunk ids of one sequence pair, `-1` for no chunk. -/
structure LocalizedAlignment where
  studentChunkId : List ℤ
  teacherChunkId : List ℤ
  deriving Inhabited

def localizeAlignment (data : LocalizedAlignment) (teacherSeqLen : ℕ) (cpGroup : Option ℕ)
    (cpRank : ℕ) : LocalizedAlignment :=
  let cpRank := if cpGroup.getD 1 > 1 then cpRank else 0
  let teacherSeqStart := cpRank * teacherSeqLen
  { studentChunkId := data.studentChunkId
    teacherChunkId :=
      slice data.teacherChunkId teacherSeqStart (teacherSeqStart + teacherSeqLen) }

/-- What `prepare_xtoken_cross_tokenizer_loss_input` makes of the alignment fields on a rank. -/
def prepareAlignment (cpGroup : Option ℕ) (data : ℕ → LocalizedAlignment) (teacherSeqLen : ℕ → ℕ)
    (cpRank : ℕ) : Except ChunkError LocalizedAlignment := do
  let align := fun rank ↦ localizeAlignment (data rank) (teacherSeqLen rank) cpGroup rank
  let studentChunkId ← cpShiftNext cpGroup (-1)
    (cpLoadBalancedToContiguous cpGroup fun rank ↦ (align rank).studentChunkId) cpRank
  let teacherChunkId ← cpShiftNext cpGroup (-1) (fun rank ↦ (align rank).teacherChunkId) cpRank
  return { studentChunkId := studentChunkId, teacherChunkId := teacherChunkId }

end Alignment

section Chunks

variable [Field K] (maxChunks : ℕ)

/-- One tensor of log-probabilities by chunk, `[C, V]`, and one of chunk sizes, `[C]`. -/
structure ChunkTensors (K : Type) (maxChunks V : ℕ) where
  logProbs : Fin maxChunks → Fin V → K
  sizes : Fin maxChunks → K

def localSums (logProbs : List (Fin V → K)) (chunkId : List ℤ) : ChunkTensors K maxChunks V :=
  let chunkMask := fun (c : Fin maxChunks) (id : ℤ) ↦ if id = c.val then (1 : K) else 0
  { logProbs := fun c ↦ (List.zipWith (fun id row ↦ chunkMask c id • row) chunkId logProbs).sum
    sizes := fun c ↦ (chunkId.countP fun id ↦ id = (c.val : ℤ) : ℕ) }

def chunkLogProbSums (logProbs : List (Fin V → K)) (chunkId : List ℤ) :
    Except ChunkError (ChunkTensors K maxChunks V) :=
  if chunkId.length ≠ logProbs.length then .error .shape
  else .ok (localSums maxChunks logProbs chunkId)

variable {maxChunks} in
def chunkAverageFinalize (sums : ChunkTensors K maxChunks V) : ChunkTensors K maxChunks V :=
  let eps := 1 / ((10 ^ 10 : ℕ) : K)
  { logProbs := fun c v ↦ sums.logProbs c v / (sums.sizes c + eps)
    sizes := sums.sizes }

def chunkAverageLogProbs (cpGroup : Option ℕ) (logProbs : ℕ → List (Fin V → K))
    (chunkId : ℕ → List ℤ) (cpRank : ℕ) : Except ChunkError (ChunkTensors K maxChunks V) := do
  let cpSize := cpGroup.getD 1
  if cpSize > 1 then
    let parts ← (List.range cpSize).mapM fun rank ↦
      chunkLogProbSums maxChunks (logProbs rank) (chunkId rank)
    return chunkAverageFinalize
      { logProbs := (parts.map (·.logProbs)).sum, sizes := (parts.map (·.sizes)).sum }
  else
    return chunkAverageFinalize (← chunkLogProbSums maxChunks (logProbs cpRank) (chunkId cpRank))

/-- The averages of one sequence pair on a rank, student and teacher, from the shards of all
ranks. -/
def rankAverages (cpGroup : Option ℕ) (studentLogProbs teacherLogProbs : ℕ → List (Fin V → K))
    (data : ℕ → LocalizedAlignment) (cpRank : ℕ) :
    Except ChunkError (ChunkTensors K maxChunks V × ChunkTensors K maxChunks V) := do
  let aligns ← (List.range (cpGroup.getD 1)).mapM
    (prepareAlignment cpGroup data fun rank ↦ (teacherLogProbs rank).length)
  let student ← chunkAverageLogProbs maxChunks cpGroup
    (cpLoadBalancedToContiguous cpGroup studentLogProbs)
    (fun rank ↦ (aligns.getD rank default).studentChunkId) cpRank
  let teacher ← chunkAverageLogProbs maxChunks cpGroup teacherLogProbs
    (fun rank ↦ (aligns.getD rank default).teacherChunkId) cpRank
  return (student, teacher)

/-- The averages of a full sequence whose chunk ids are shifted once, without a group. -/
def singleRankAverages (logProbs : List (Fin V → K)) (chunkId : List ℤ) :
    Except ChunkError (ChunkTensors K maxChunks V) := do
  let shifted ← cpShiftNext none (-1) (fun _ ↦ chunkId) 0
  chunkAverageLogProbs maxChunks none (fun _ ↦ logProbs) (fun _ ↦ shifted) 0

def batchAverages (cpGroup : Option ℕ)
    (studentLogProbs teacherLogProbs : ℕ → Fin B → List (Fin V → K))
    (data : ℕ → Fin B → LocalizedAlignment) (cpRank : ℕ) :
    Except ChunkError (List (ChunkTensors K maxChunks V × ChunkTensors K maxChunks V)) :=
  (List.finRange B).mapM fun b ↦ rankAverages maxChunks cpGroup
    (fun rank ↦ studentLogProbs rank b) (fun rank ↦ teacherLogProbs rank b)
    (fun rank ↦ data rank b) cpRank

def singleRankBatchAverages (studentLogProbs teacherLogProbs : Fin B → List (Fin V → K))
    (studentChunkId teacherChunkId : Fin B → List ℤ) :
    Except ChunkError (List (ChunkTensors K maxChunks V × ChunkTensors K maxChunks V)) :=
  (List.finRange B).mapM fun b ↦ do
    let student ← singleRankAverages maxChunks (studentLogProbs b) (studentChunkId b)
    let teacher ← singleRankAverages maxChunks (teacherLogProbs b) (teacherChunkId b)
    return (student, teacher)

end Chunks

section Windows

variable {cpGroup : Option ℕ} {cpRank m : ℕ} {xs : List α} {fill : α}

theorem cpLoadBalancedToContiguous_eq (hrank : cpRank < cpGroup.getD 1)
    (hsplit : Splits (cpGroup.getD 1) xs.length) :
    cpLoadBalancedToContiguous cpGroup
      (fun rank ↦ getTokensOnThisCpRank rank (cpGroup.getD 1) xs) cpRank =
        block (xs.length / cpGroup.getD 1) xs cpRank := by
  rw [cpLoadBalancedToContiguous]
  generalize cpGroup.getD 1 = cpSize at hrank hsplit ⊢
  rcases Nat.lt_or_ge 1 cpSize with hlt | hge
  · rw [if_neg (Nat.not_le.mpr hlt), allgather_getTokens hlt (hsplit hlt), block, Nat.succ_mul]
  · obtain rfl : cpSize = 1 := by omega
    obtain rfl : cpRank = 0 := by omega
    rw [if_pos le_rfl, getTokensOnThisCpRank_one, Nat.div_one, block_zero le_rfl]

theorem setLast_rotate (h : xs ≠ []) : setLast (xs.rotate 1) fill = .ok (xs.tail ++ [fill]) := by
  obtain ⟨x, xs, rfl⟩ := List.exists_cons_of_ne_nil h
  rw [List.rotate_cons_succ, List.rotate_zero, setLast, if_neg (by simp), List.dropLast_concat,
    List.tail_cons]

theorem first_block (hm : 0 < m) (hlen : (cpRank + 1) * m ≤ xs.length) :
    first (block m xs cpRank) = .ok (xs.getD (cpRank * m) fill) := by
  have hlt : cpRank * m < xs.length := by
    rw [Nat.succ_mul] at hlen
    omega
  rw [first, List.head?_eq_getElem?, getElem?_block hm, Nat.add_zero,
    List.getElem?_eq_getElem hlt, List.getD_eq_getElem _ _ hlt]
  rfl

theorem length_shift (h : xs ≠ []) : (xs.tail ++ [fill]).length = xs.length := by
  have hpos : 0 < xs.length := List.length_pos_iff.mpr h
  rw [List.length_append, List.length_tail, List.length_singleton]
  omega

theorem tail_block_append (hm : 0 < m) (hlen : (cpRank + 1) * m ≤ xs.length) :
    (block m xs cpRank).tail ++ [(xs ++ [fill]).getD ((cpRank + 1) * m) fill] =
      block m (xs.tail ++ [fill]) cpRank := by
  obtain ⟨k, rfl⟩ : ∃ k, m = k + 1 := ⟨m - 1, by omega⟩
  rw [Nat.succ_mul cpRank] at hlen ⊢
  have hne : xs ≠ [] := List.ne_nil_of_length_pos (by omega)
  have hfrom : ∃ y ys, xs.drop (cpRank * (k + 1)) = y :: ys :=
    List.exists_cons_of_ne_nil (List.ne_nil_of_length_pos (by rw [List.length_drop]; omega))
  obtain ⟨y, ys, hfrom⟩ := hfrom
  have hys : k ≤ ys.length := by
    have hrest := congrArg List.length hfrom
    rw [List.length_drop, List.length_cons] at hrest
    omega
  have hall : (xs ++ [fill]).drop (cpRank * (k + 1)) = y :: (ys ++ [fill]) := by
    rw [List.drop_append_of_le_length (by omega), hfrom, List.cons_append]
  have hlt : k < (ys ++ [fill]).length := by
    rw [List.length_append, List.length_singleton]
    omega
  have hnext : (xs ++ [fill]).getD (cpRank * (k + 1) + (k + 1)) fill = (ys ++ [fill])[k] := by
    rw [List.getD_eq_getElem?_getD, ← List.getElem?_drop, hall, List.getElem?_cons_succ,
      List.getElem?_eq_getElem hlt, Option.getD_some]
  rw [block_eq, block_eq, hfrom, hnext, ← List.tail_append_of_ne_nil hne, List.drop_tail,
    ← List.tail_drop, hall, List.tail_cons, List.take_succ_cons, List.tail_cons,
    ← List.take_append_getElem hlt, List.take_append_of_le_length hys]

theorem getD_map_range {f : ℕ → α} {n i : ℕ} (h : i < n) :
    ((List.range n).map f).getD i fill = f i := by
  rw [List.getD_eq_getElem?_getD, List.getElem?_map, List.getElem?_range h, Option.map_some,
    Option.getD_some]

theorem mapM_range_of_error {γ : Type} {f : ℕ → Except ChunkError γ} {n : ℕ} {e : ChunkError}
    (hn : 0 < n) (h : f 0 = .error e) : (List.range n).mapM f = .error e := by
  obtain ⟨k, rfl⟩ := Nat.exists_eq_succ_of_ne_zero hn.ne'
  rw [List.range_succ_eq_map, List.mapM_cons, h]
  rfl

theorem mapM_range_of_ok {γ : Type} {f : ℕ → Except ChunkError γ} {g : ℕ → γ} {n : ℕ}
    (h : ∀ rank < n, f rank = .ok (g rank)) :
    (List.range n).mapM f = .ok ((List.range n).map g) :=
  mapM_pure_of_forall fun rank hrank ↦ h rank (List.mem_range.mp hrank)

theorem getD_gathered {cpSize : ℕ} (hm : 0 < m) (hrank : cpRank < cpSize)
    (hlen : xs.length = cpSize * m) :
    (if cpRank < cpSize - 1 then
      ((List.range cpSize).map fun rank ↦ xs.getD (rank * m) fill).getD (cpRank + 1) fill
        else fill) = (xs ++ [fill]).getD ((cpRank + 1) * m) fill := by
  by_cases hnext : cpRank < cpSize - 1
  · have hin : (cpRank + 1) * m < xs.length :=
      hlen.symm ▸ Nat.mul_lt_mul_of_pos_right (by omega) hm
    rw [if_pos hnext, List.getD_append _ _ _ _ hin, getD_map_range (by omega)]
  · obtain rfl : cpSize = cpRank + 1 := by omega
    rw [if_neg hnext, ← hlen, List.getD_append_right _ _ _ _ le_rfl, Nat.sub_self,
      List.getD_cons_zero]

theorem cpShiftNext_block {x : ℕ → List α} (hrank : cpRank < cpGroup.getD 1)
    (hlen : xs.length = cpGroup.getD 1 * m)
    (hx : ∀ rank < cpGroup.getD 1, x rank = block m xs rank) :
    cpShiftNext cpGroup fill x cpRank =
      if xs = [] then .error .index else .ok (block m (xs.tail ++ [fill]) cpRank) := by
  rw [cpShiftNext, hx cpRank hrank]
  generalize cpGroup.getD 1 = cpSize at hrank hlen hx ⊢
  rcases Nat.lt_or_ge 1 cpSize with hlt | hge
  · rw [if_neg (Nat.not_le.mpr hlt)]
    rcases Nat.eq_zero_or_pos m with rfl | hm
    · obtain rfl : xs = [] := List.eq_nil_of_length_eq_zero hlen
      rw [if_pos rfl, mapM_range_of_error (by omega)]
      · rfl
      · rw [hx 0 (by omega)]
        rfl
    · have hpos : 0 < xs.length := hlen.symm ▸ Nat.mul_pos (by omega) hm
      have hle : ∀ rank < cpSize, (rank + 1) * m ≤ xs.length := fun rank hrank ↦
        hlen.symm ▸ Nat.mul_le_mul_right m hrank
      have hgather : ((List.range cpSize).mapM fun rank ↦ first (x rank)) =
          .ok ((List.range cpSize).map fun rank ↦ xs.getD (rank * m) fill) := by
        apply mapM_range_of_ok
        intro rank hrank
        rw [hx rank hrank]
        exact first_block hm (hle rank hrank)
      have hne : block m xs cpRank ≠ [] := by
        apply List.ne_nil_of_length_pos
        rw [length_block (hle cpRank hrank)]
        exact hm
      rw [if_neg (List.ne_nil_of_length_pos hpos), hgather,
        ← tail_block_append hm (hle cpRank hrank), ← getD_gathered hm hrank hlen]
      exact setLast_rotate hne
  · obtain rfl : cpSize = 1 := by omega
    obtain rfl : cpRank = 0 := by omega
    rw [Nat.one_mul] at hlen
    rw [if_pos le_rfl, block_zero hlen.le]
    by_cases hnil : xs = []
    · rw [if_pos hnil, hnil]
      rfl
    · rw [if_neg hnil, setLast_rotate hnil, block_zero ((length_shift hnil).trans hlen).le]

end Windows

section Sums

variable [Field K] {maxChunks m n : ℕ} {logProbs : List (Fin V → K)} {chunkId : List ℤ}

theorem sum_localSums (hprobs : logProbs.length = n * m) (hids : chunkId.length = n * m) :
    (((List.range n).map fun r ↦ localSums maxChunks (block m logProbs r) (block m chunkId r)).map
      (·.logProbs)).sum = (localSums maxChunks logProbs chunkId).logProbs := by
  funext c
  rw [Pi.list_sum_apply, List.map_map, List.map_map]
  simp only [Function.comp_def, localSums, ← block_zipWith]
  apply sum_map_block
  rw [List.length_zipWith, hprobs, hids, Nat.min_self]

theorem sum_localSizes (hids : chunkId.length = n * m) :
    (((List.range n).map fun r ↦ localSums maxChunks (block m logProbs r) (block m chunkId r)).map
      (·.sizes)).sum = (localSums maxChunks logProbs chunkId).sizes := by
  funext c
  rw [Pi.list_sum_apply, List.map_map, List.map_map]
  simp only [Function.comp_def, localSums]
  conv_rhs => rw [← flatMap_block hids, List.countP_flatMap, Nat.cast_list_sum, List.map_map]
  rfl

theorem ok_bind {β γ : Type} (b : β) (f : β → Except ChunkError γ) :
    (Except.ok b >>= f) = f b := rfl

theorem chunkLogProbSums_of_length (h : chunkId.length = logProbs.length) :
    chunkLogProbSums maxChunks logProbs chunkId = .ok (localSums maxChunks logProbs chunkId) :=
  if_neg (not_not.mpr h)

theorem chunkAverageLogProbs_block {cpGroup : Option ℕ} {cpRank : ℕ}
    {probs : ℕ → List (Fin V → K)} {ids : ℕ → List ℤ} (hrank : cpRank < cpGroup.getD 1)
    (hlen : logProbs.length = cpGroup.getD 1 * m) (hids : chunkId.length = logProbs.length)
    (hprobs : ∀ rank < cpGroup.getD 1, probs rank = block m logProbs rank)
    (hblock : ∀ rank < cpGroup.getD 1, ids rank = block m chunkId rank) :
    chunkAverageLogProbs maxChunks cpGroup probs ids cpRank =
      .ok (chunkAverageFinalize (localSums maxChunks logProbs chunkId)) := by
  rw [chunkAverageLogProbs]
  generalize cpGroup.getD 1 = cpSize at hrank hlen hprobs hblock ⊢
  have hlocal : ∀ rank < cpSize, chunkLogProbSums maxChunks (probs rank) (ids rank) =
      .ok (localSums maxChunks (block m logProbs rank) (block m chunkId rank)) := by
    intro rank hrank
    have hle : (rank + 1) * m ≤ logProbs.length := hlen.symm ▸ Nat.mul_le_mul_right m hrank
    rw [hprobs rank hrank, hblock rank hrank]
    apply chunkLogProbSums_of_length
    rw [length_block hle, length_block (hids.symm ▸ hle)]
  rcases Nat.lt_or_ge 1 cpSize with hlt | hge
  · rw [if_pos hlt, mapM_range_of_ok hlocal, ok_bind, sum_localSums hlen (hids.trans hlen),
      sum_localSizes (hids.trans hlen)]
    rfl
  · obtain rfl : cpSize = 1 := by omega
    obtain rfl : cpRank = 0 := by omega
    rw [Nat.one_mul] at hlen
    rw [if_neg (Nat.lt_irrefl 1), hlocal 0 hrank, block_zero hlen.le,
      block_zero (hids.trans hlen).le]
    rfl

theorem singleRankAverages_eq (hids : chunkId.length = logProbs.length) (hne : chunkId ≠ []) :
    singleRankAverages maxChunks logProbs chunkId =
      .ok (chunkAverageFinalize (localSums maxChunks logProbs (chunkId.tail ++ [-1]))) := by
  have hshift : cpShiftNext none (-1) (fun _ ↦ chunkId) 0 = .ok (chunkId.tail ++ [-1]) :=
    setLast_rotate hne
  rw [singleRankAverages, hshift, ok_bind]
  exact congrArg (Except.map chunkAverageFinalize)
    (chunkLogProbSums_of_length ((length_shift hne).trans hids))

end Sums

section Shards

variable [Field K] {maxChunks : ℕ} {cpGroup : Option ℕ} {cpRank : ℕ}
  {studentLogProbs teacherLogProbs : List (Fin V → K)} {studentChunkId teacherChunkId : List ℤ}

theorem localizeAlignment_block {data : LocalizedAlignment} {m : ℕ}
    (hrank : cpRank < cpGroup.getD 1) :
    (localizeAlignment data m cpGroup cpRank).teacherChunkId =
      block m data.teacherChunkId cpRank := by
  have hself : (if cpGroup.getD 1 > 1 then cpRank else 0) = cpRank := by
    rcases Nat.lt_or_ge 1 (cpGroup.getD 1) with hlt | hge
    · exact if_pos hlt
    · rw [if_neg (Nat.not_lt.mpr hge)]
      omega
  rw [localizeAlignment, hself, block, Nat.succ_mul]

theorem prepareAlignment_shards {teacherSeqLen : ℕ → ℕ} {m : ℕ} (hrank : cpRank < cpGroup.getD 1)
    (hstudent : Splits (cpGroup.getD 1) studentChunkId.length)
    (hteacher : teacherChunkId.length = cpGroup.getD 1 * m)
    (hwindow : ∀ rank < cpGroup.getD 1, teacherSeqLen rank = m) :
    prepareAlignment cpGroup
      (fun rank ↦ ⟨getTokensOnThisCpRank rank (cpGroup.getD 1) studentChunkId, teacherChunkId⟩)
      teacherSeqLen cpRank =
        if studentChunkId = [] ∨ teacherChunkId = [] then .error .index
        else .ok
          ⟨block (studentChunkId.length / cpGroup.getD 1) (studentChunkId.tail ++ [-1]) cpRank,
            block m (teacherChunkId.tail ++ [-1]) cpRank⟩ := by
  have hshare : studentChunkId.length =
      cpGroup.getD 1 * (studentChunkId.length / cpGroup.getD 1) :=
    (Nat.mul_div_cancel' (hstudent.dvd (by omega))).symm
  have hs := @cpShiftNext_block _ _ _ _ _ (-1) _ hrank hshare fun rank hrank ↦
    cpLoadBalancedToContiguous_eq hrank hstudent
  have ht : cpShiftNext cpGroup (-1) (fun rank ↦ (localizeAlignment
      ⟨getTokensOnThisCpRank rank (cpGroup.getD 1) studentChunkId, teacherChunkId⟩
      (teacherSeqLen rank) cpGroup rank).teacherChunkId) cpRank =
        if teacherChunkId = [] then .error .index
        else .ok (block m (teacherChunkId.tail ++ [-1]) cpRank) := by
    apply cpShiftNext_block hrank hteacher
    intro rank hrank
    rw [hwindow rank hrank]
    exact localizeAlignment_block hrank
  rw [prepareAlignment]
  dsimp only [localizeAlignment] at ht ⊢
  rw [hs, ht]
  by_cases hsnil : studentChunkId = []
  · rw [if_pos hsnil, if_pos (Or.inl hsnil)]
    rfl
  · by_cases htnil : teacherChunkId = []
    · rw [if_neg hsnil, if_pos htnil, if_pos (Or.inr htnil)]
      rfl
    · rw [if_neg hsnil, if_neg htnil, if_neg (not_or.mpr ⟨hsnil, htnil⟩)]
      rfl

theorem rankAverages_shards (hrank : cpRank < cpGroup.getD 1)
    (hstudent : studentChunkId.length = studentLogProbs.length)
    (hteacher : teacherChunkId.length = teacherLogProbs.length)
    (hsplit : Splits (cpGroup.getD 1) studentLogProbs.length)
    (hdvd : cpGroup.getD 1 ∣ teacherLogProbs.length) :
    rankAverages maxChunks cpGroup
      (fun rank ↦ getTokensOnThisCpRank rank (cpGroup.getD 1) studentLogProbs)
      (fun rank ↦ block (teacherLogProbs.length / cpGroup.getD 1) teacherLogProbs rank)
      (fun rank ↦ ⟨getTokensOnThisCpRank rank (cpGroup.getD 1) studentChunkId, teacherChunkId⟩)
      cpRank =
        (do
          let student ← singleRankAverages maxChunks studentLogProbs studentChunkId
          let teacher ← singleRankAverages maxChunks teacherLogProbs teacherChunkId
          return (student, teacher)) := by
  have hpos : 0 < cpGroup.getD 1 := by omega
  have hshare := (Nat.mul_div_cancel' (hsplit.dvd hpos)).symm
  have hparts := (Nat.mul_div_cancel' hdvd).symm
  have hprepare {rank : ℕ} (hrank : rank < cpGroup.getD 1) :=
    prepareAlignment_shards hrank (hstudent.symm ▸ hsplit) (hteacher.trans hparts)
      fun rank hrank ↦ length_block (hparts.symm ▸ Nat.mul_le_mul_right _ hrank)
  rw [rankAverages]
  by_cases hnil : studentChunkId = [] ∨ teacherChunkId = []
  · rw [mapM_range_of_error hpos ((hprepare hpos).trans (if_pos hnil))]
    by_cases hsnil : studentChunkId = []
    · rw [hsnil]
      rfl
    · rw [singleRankAverages_eq hstudent hsnil, hnil.resolve_left hsnil]
      rfl
  · obtain ⟨hsne, htne⟩ := not_or.mp hnil
    have haligns := mapM_range_of_ok fun rank hrank ↦ (hprepare hrank).trans (if_neg hnil)
    rw [singleRankAverages_eq hstudent hsne, singleRankAverages_eq hteacher htne, haligns, ok_bind,
      chunkAverageLogProbs_block hrank hshare ((length_shift hsne).trans hstudent)
        (fun rank hrank ↦ cpLoadBalancedToContiguous_eq hrank hsplit)
        (fun rank hrank ↦ by rw [getD_map_range hrank, hstudent]),
      chunkAverageLogProbs_block hrank hparts ((length_shift htne).trans hteacher)
        (fun rank hrank ↦ rfl) (fun rank hrank ↦ by rw [getD_map_range hrank])]

/-- Every rank has the averages and sizes of the full batch, student and teacher alike. -/
theorem batchAverages_shards (maxChunks : ℕ)
    (studentLogProbs teacherLogProbs : Fin B → List (Fin V → K))
    (studentChunkId teacherChunkId : Fin B → List ℤ) (hrank : cpRank < cpGroup.getD 1)
    (hstudent : ∀ b, (studentChunkId b).length = (studentLogProbs b).length)
    (hteacher : ∀ b, (teacherChunkId b).length = (teacherLogProbs b).length)
    (hsplit : ∀ b, Splits (cpGroup.getD 1) (studentLogProbs b).length)
    (hdvd : ∀ b, cpGroup.getD 1 ∣ (teacherLogProbs b).length) :
    batchAverages maxChunks cpGroup
      (fun rank b ↦ getTokensOnThisCpRank rank (cpGroup.getD 1) (studentLogProbs b))
      (fun rank b ↦ block ((teacherLogProbs b).length / cpGroup.getD 1) (teacherLogProbs b) rank)
      (fun rank b ↦
        ⟨getTokensOnThisCpRank rank (cpGroup.getD 1) (studentChunkId b), teacherChunkId b⟩) cpRank =
        singleRankBatchAverages maxChunks studentLogProbs teacherLogProbs studentChunkId
          teacherChunkId := by
  rw [batchAverages, singleRankBatchAverages]
  congr 1
  funext b
  exact rankAverages_shards hrank (hstudent b) (hteacher b) (hsplit b) (hdvd b)

/-- Chunk 0 of the student lies on both ranks. -/
theorem batchAverages_shards_two :
    batchAverages 2 (some 2)
      (fun rank (_ : Fin 1) ↦ getTokensOnThisCpRank rank 2 [fun (_ : Fin 1) ↦ (1 : ℚ), 2, 3, 4])
      (fun rank _ ↦ block 1 [5, 6] rank)
      (fun rank _ ↦ ⟨getTokensOnThisCpRank rank 2 [-1, 1, 0, 0], [1, 0]⟩) 1 =
        singleRankBatchAverages 2 (fun (_ : Fin 1) ↦ [fun _ ↦ 1, 2, 3, 4]) (fun _ ↦ [5, 6])
          (fun _ ↦ [-1, 1, 0, 0]) (fun _ ↦ [1, 0]) :=
  @batchAverages_shards ℚ 1 1 _ (some 2) 1 2 (fun _ ↦ [fun _ ↦ 1, 2, 3, 4]) (fun _ ↦ [5, 6])
    (fun _ ↦ [-1, 1, 0, 0]) (fun _ ↦ [1, 0]) Nat.one_lt_two (fun _ ↦ rfl) (fun _ ↦ rfl)
    (fun _ _ ↦ dvd_refl 4) (fun _ ↦ dvd_refl 2)

end Shards

end NemoRL.XToken.ChunkAverages
