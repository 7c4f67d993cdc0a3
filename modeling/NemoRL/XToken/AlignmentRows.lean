import Mathlib
import NemoRL.Foundations.Positions
import NemoRL.XToken.AlignmentTiles

namespace NemoRL.XToken.TokenAligner

open Foundations.Tilings Foundations.Positions

section Spans

variable {span : AlignmentPair → ℤ × ℤ} {lo hi : ℤ} {pairs : List AlignmentPair}

theorem SpansTile.le (h : SpansTile span lo pairs hi) : lo ≤ hi := by
  induction pairs generalizing lo with
  | nil => exact h.le
  | cons p pairs ih =>
    rcases h with ⟨-, hrest⟩ | ⟨-, hlt, hrest⟩
    · exact ih hrest
    · exact hlt.le.trans (ih hrest)

theorem SpansTile.tiles (h : SpansTile span lo pairs hi) (hlo : 0 ≤ lo) :
    Tiles lo ((pairs.filter fun p ↦ (span p).1 ≠ -1).map span) hi := by
  induction pairs generalizing lo with
  | nil => exact h
  | cons p pairs ih =>
    rcases h with ⟨hempty, hrest⟩ | ⟨hstart, hlt, hrest⟩
    · rw [List.filter_cons_of_neg (by simp [hempty])]
      exact ih hrest hlo
    · have hne : (span p).1 ≠ -1 := by omega
      rw [List.filter_cons_of_pos (by simp [hne]), List.map_cons]
      exact ⟨hstart, by rw [hstart]; exact hlt, ih hrest (by omega)⟩

theorem SpansTile.exists_span (h : SpansTile span lo pairs hi) {p : ℤ} (hlo : lo ≤ p)
    (hhi : p < hi) : ∃ (k : ℕ) (pair : AlignmentPair), pairs[k]? = some pair ∧
      (span pair).1 ≤ p ∧ p < (span pair).2 := by
  induction pairs generalizing lo with
  | nil =>
    obtain rfl : lo = hi := h
    omega
  | cons q pairs ih =>
    rcases h with ⟨-, hrest⟩ | ⟨hstart, -, hrest⟩
    · obtain ⟨k, pair, hget, hp⟩ := ih hrest hlo
      exact ⟨k + 1, pair, hget, hp⟩
    · by_cases hp : p < (span q).2
      · exact ⟨0, q, rfl, by omega, hp⟩
      · obtain ⟨k, pair, hget, hp⟩ := ih hrest (by omega)
        exact ⟨k + 1, pair, hget, hp⟩

theorem SpansTile.pairwise (h : SpansTile span lo pairs hi) :
    (∀ p ∈ pairs, (span p).1 < (span p).2 → lo ≤ (span p).1 ∧ (span p).2 ≤ hi) ∧
      pairs.Pairwise fun p q ↦ (span p).1 < (span p).2 → (span q).1 < (span q).2 →
        (span p).2 ≤ (span q).1 := by
  induction pairs generalizing lo with
  | nil => exact ⟨fun p hp ↦ (List.not_mem_nil hp).elim, .nil⟩
  | cons p pairs ih =>
    rcases h with ⟨hempty, hrest⟩ | ⟨hstart, hlt, hrest⟩
    · obtain ⟨hbounds, hpairs⟩ := ih hrest
      constructor
      · intro q hq hne
        rcases List.mem_cons.mp hq with rfl | hq
        · rw [hempty] at hne
          omega
        · exact hbounds q hq hne
      · apply List.pairwise_cons.mpr ⟨?_, hpairs⟩
        intro q _ hne
        rw [hempty] at hne
        omega
    · obtain ⟨hbounds, hpairs⟩ := ih hrest
      have hle := hrest.le
      constructor
      · intro q hq hne
        rcases List.mem_cons.mp hq with rfl | hq
        · omega
        · have hq' := hbounds q hq hne
          omega
      · apply List.pairwise_cons.mpr ⟨?_, hpairs⟩
        intro q hq _ hne
        exact (hbounds q hq hne).1

theorem SpansTile.index_le (h : SpansTile span lo pairs hi) {k l : ℕ} {a b : AlignmentPair}
    (hk : pairs[k]? = some a) (hl : pairs[l]? = some b) {p q : ℤ} (hpq : p ≤ q)
    (hp : (span a).1 ≤ p ∧ p < (span a).2) (hq : (span b).1 ≤ q ∧ q < (span b).2) : k ≤ l := by
  by_contra hlt
  obtain ⟨hk', rfl⟩ := List.getElem?_eq_some_iff.mp hk
  obtain ⟨hl', rfl⟩ := List.getElem?_eq_some_iff.mp hl
  have hle := List.pairwise_iff_getElem.mp h.pairwise.2 l k hl' hk' (by omega) (by omega)
    (by omega)
  omega

end Spans

section ChunkIds

variable {span : AlignmentPair → ℤ × ℤ} {width : ℕ}

theorem length_writeChunkId (row : List ℤ) (x : AlignmentPair × ℕ) :
    (writeChunkId width span row x).length = row.length := by
  rw [writeChunkId]
  split
  · exact List.length_mapIdx
  · rfl

theorem writeChunkId_of_empty {row : List ℤ} {x : AlignmentPair × ℕ}
    (h : span x.1 = (-1, -1)) : writeChunkId width span row x = row := by
  rw [writeChunkId, h]
  rfl

theorem getElem?_writeChunkId (row : List ℤ) (x : AlignmentPair × ℕ) {lo : ℤ}
    (hstart : (span x.1).1 = lo) (hlo : 0 ≤ lo) (hlt : lo < (span x.1).2)
    (hstop : (span x.1).2 ≤ width) (p : ℕ) :
    (writeChunkId width span row x)[p]? =
      row[p]?.map fun id ↦ if lo ≤ p ∧ p < (span x.1).2 then (x.2 : ℤ) else id := by
  rw [writeChunkId, if_pos (by omega), List.getElem?_mapIdx, hstart]

/-- Every span holds the index of its own pair, and nothing else has changed. -/
theorem foldl_writeChunkId {lo hi : ℤ} {pairs : List AlignmentPair} (first : ℕ) {row : List ℤ}
    (h : SpansTile span lo pairs hi) (hlo : 0 ≤ lo) (hhi : hi ≤ width)
    (hrow : row.length = width) :
    (∀ (k : ℕ) (pair : AlignmentPair) (p : ℕ), pairs[k]? = some pair → (span pair).1 ≤ p →
      p < (span pair).2 →
      ((pairs.zipIdx first).foldl (writeChunkId width span) row)[p]? =
        some ((first + k : ℕ) : ℤ)) ∧
    ∀ p : ℕ, (p < lo ∨ hi ≤ p) →
      ((pairs.zipIdx first).foldl (writeChunkId width span) row)[p]? = row[p]? := by
  induction pairs generalizing lo first row with
  | nil =>
    refine ⟨?_, fun p _ ↦ rfl⟩
    intro k pair p hk
    cases hk
  | cons pair pairs ih =>
    rw [List.zipIdx_cons, List.foldl_cons]
    have hshift : ∀ k, first + (k + 1) = first + 1 + k := by omega
    rcases h with ⟨hempty, hrest⟩ | ⟨hstart, hlt, hrest⟩
    · rw [writeChunkId_of_empty hempty]
      obtain ⟨hown, hframe⟩ := ih (first + 1) hrest hlo hrow
      refine ⟨?_, hframe⟩
      intro k pair' p hk hp hp'
      cases k with
      | zero =>
        obtain rfl := Option.some.inj hk
        rw [hempty] at hp'
        omega
      | succ k =>
        rw [hshift k]
        exact hown k pair' p hk hp hp'
    · have hle := hrest.le
      have hwritten := fun p ↦ getElem?_writeChunkId row (pair, first) hstart hlo hlt
        (hle.trans hhi) p
      obtain ⟨hown, hframe⟩ := ih (first + 1) hrest (by omega)
        ((length_writeChunkId row (pair, first)).trans hrow)
      constructor
      · intro k pair' p hk hp hp'
        cases k with
        | zero =>
          obtain rfl := Option.some.inj hk
          rw [hframe p (.inl hp'), hwritten, List.getElem?_eq_getElem (by omega), Option.map_some,
            if_pos ⟨by omega, hp'⟩]
          rfl
        | succ k =>
          rw [hshift k]
          exact hown k pair' p hk hp hp'
      · intro p hp
        rw [hframe p (by omega), hwritten]
        cases row[p]? with
        | none => rfl
        | some id =>
          rw [Option.map_some, if_neg]
          dsimp only
          omega

theorem getElem?_chunkIdRow {n : ℕ} {pairs : List AlignmentPair}
    (h : SpansTile span 0 pairs n) (hn : n ≤ width) :
    (∀ (k : ℕ) (pair : AlignmentPair) (p : ℕ), pairs[k]? = some pair → (span pair).1 ≤ p →
      p < (span pair).2 → (chunkIdRow width span pairs)[p]? = some (k : ℤ)) ∧
    ∀ p : ℕ, n ≤ p → p < width → (chunkIdRow width span pairs)[p]? = some (-1) := by
  obtain ⟨hown, hframe⟩ := foldl_writeChunkId 0 h le_rfl (Int.ofNat_le.mpr hn)
    (List.length_replicate (n := width) (a := (-1 : ℤ)))
  constructor
  · intro k pair p hk hp hp'
    rw [chunkIdRow, hown k pair p hk hp hp', Nat.zero_add]
  · intro p hp hp'
    rw [chunkIdRow, hframe p (.inr (Int.ofNat_le.mpr hp)), List.getElem?_replicate, if_pos hp']

end ChunkIds

section Partition

variable {width : ℕ} {start : AlignmentPair → ℤ}

theorem getElem?_foldl_set (pairs : List AlignmentPair) (row : List Bool)
    (hrow : row.length = width) (p : ℕ) :
    (pairs.foldl (fun row pair ↦
      if pair.exactPartition ∧ 0 ≤ start pair ∧ start pair < width then
        row.set (start pair).toNat true
      else row) row)[p]? =
      row[p]?.map fun x ↦ x || pairs.any fun pair ↦ pair.exactPartition && start pair = p := by
  induction pairs generalizing row with
  | nil => simp
  | cons pair pairs ih =>
    rw [List.foldl_cons]
    split
    · rename_i hset
      rw [ih _ (by rw [List.length_set, hrow]), List.getElem?_set]
      by_cases hp : (start pair).toNat = p
      · have heq : start pair = p := by omega
        rw [if_pos hp, if_pos (by omega), List.getElem?_eq_getElem (by omega), List.any_cons, heq,
          hset.1]
        simp
      · have hne : start pair ≠ p := by omega
        rw [if_neg hp, List.any_cons]
        simp [hne]
    · rename_i hset
      rw [ih _ hrow, List.any_cons]
      rcases Nat.lt_or_ge p width with hp | hp
      · have hfalse : (pair.exactPartition && decide (start pair = p)) = false := by
          by_contra htrue
          simp only [Bool.not_eq_false, Bool.and_eq_true, decide_eq_true_eq] at htrue
          exact hset ⟨htrue.1, by omega, by omega⟩
        rw [hfalse, Bool.false_or]
      · rw [List.getElem?_eq_none (by omega)]
        rfl

theorem getElem?_partitionRow (pairs : List AlignmentPair) (p : ℕ) :
    (partitionRow width start pairs)[p]? = if p < width then
      some (pairs.any fun pair ↦ pair.exactPartition && start pair = p) else none := by
  rw [partitionRow, getElem?_foldl_set _ _ List.length_replicate, List.getElem?_replicate]
  split <;> simp

def truePositions (mask : List Bool) : List ℕ := indicesWhere id mask

/-- The positions of one side of the exact pairs, in the order of the pairs. -/
def exactPositions (start : AlignmentPair → ℤ) (pairs : List AlignmentPair) : List ℕ :=
  (pairs.filter (·.exactPartition)).map fun pair ↦ (start pair).toNat

theorem truePositions_partitionRow {span : AlignmentPair → ℤ × ℤ} {n : ℕ}
    {pairs : List AlignmentPair} (h : SpansTile span 0 pairs n) (hn : n ≤ width)
    (hexact : ∀ pair : AlignmentPair, pair.exactPartition = true →
      (span pair).1 = start pair ∧ (span pair).2 = start pair + 1) :
    truePositions (partitionRow width start pairs) = exactPositions start pairs := by
  obtain ⟨hbounds, hpairs⟩ := h.pairwise
  have hplace : ∀ pair ∈ pairs, pair.exactPartition = true → 0 ≤ start pair ∧ start pair < n := by
    intro pair hmem hpair
    obtain ⟨hs, hstop⟩ := hexact pair hpair
    have hin := hbounds pair hmem (by omega)
    omega
  apply List.Pairwise.eq_of_mem_iff (r := (· < ·)) (pairwise_indicesWhere _ _)
  · rw [exactPositions, List.pairwise_map]
    apply (hpairs.filter (·.exactPartition)).imp_of_mem
    intro a b ha hb hab
    obtain ⟨ha, hea⟩ := List.mem_filter.mp ha
    obtain ⟨hb, heb⟩ := List.mem_filter.mp hb
    have hpa := hplace a ha hea
    have hpb := hplace b hb heb
    have hsa := hexact a hea
    have hsb := hexact b heb
    have hle := hab (by omega) (by omega)
    omega
  · intro i
    simp only [mem_indicesWhere, exactPositions, List.mem_map, getElem?_partitionRow, id_eq]
    constructor
    · rintro ⟨x, hx, rfl⟩
      split at hx
      · obtain ⟨pair, hmem, hpair⟩ := List.any_eq_true.mp (Option.some.inj hx)
        simp only [Bool.and_eq_true, decide_eq_true_eq] at hpair
        exact ⟨pair, List.mem_filter.mpr ⟨hmem, hpair.1⟩, by omega⟩
      · cases hx
    · rintro ⟨pair, hmem, hi⟩
      obtain ⟨hmem, hpair⟩ := List.mem_filter.mp hmem
      have hp := hplace pair hmem hpair
      have hstart : start pair = (i : ℤ) := by omega
      refine ⟨true, ?_, rfl⟩
      rw [if_pos (by omega)]
      apply congrArg some
      apply List.any_eq_true.mpr
      exact ⟨pair, hmem, by simp [hpair, hstart]⟩

end Partition

section Padding

def rightMask (len width : ℕ) : List ℕ := List.replicate len 1 ++ List.replicate (width - len) 0

variable {len width : ℕ}

theorem getElem?_masked {α : Type} {row : List α} (hlen : len ≤ width) (hrow : row.length = width)
    (sentinel : α) (p : ℕ) :
    (List.zipWith (fun keep x ↦ if keep = 0 then sentinel else x) (rightMask len width) row)[p]? =
      if p < len then row[p]? else if p < width then some sentinel else none := by
  rw [List.getElem?_zipWith, rightMask]
  rcases Nat.lt_or_ge p len with hp | hp
  · rw [if_pos hp, List.getElem?_append_left (by rwa [List.length_replicate]),
      List.getElem?_replicate, if_pos hp, List.getElem?_eq_getElem (by omega)]
    rfl
  · rw [if_neg (by omega), List.getElem?_append_right (by rwa [List.length_replicate]),
      List.getElem?_replicate, List.length_replicate]
    rcases Nat.lt_or_ge p width with hw | hw
    · rw [if_pos (by omega), if_pos hw, List.getElem?_eq_getElem (by omega)]
      rfl
    · rw [if_neg (by omega), if_neg (by omega)]

theorem truePositions_masked {row : List Bool} (hlen : len ≤ width) (hrow : row.length = width) :
    truePositions (List.zipWith (fun keep x ↦ if keep = 0 then false else x)
      (rightMask len width) row) = (truePositions row).filter (· < len) := by
  apply List.Pairwise.eq_of_mem_iff (r := (· < ·)) (pairwise_indicesWhere _ _)
  · exact (pairwise_indicesWhere _ _).filter _
  · intro i
    simp only [truePositions, mem_indicesWhere, List.mem_filter, decide_eq_true_eq,
      getElem?_masked hlen hrow, id_eq]
    constructor
    · rintro ⟨x, hx, rfl⟩
      split at hx
      · exact ⟨⟨true, hx, rfl⟩, ‹_›⟩
      · split at hx <;> cases hx
    · rintro ⟨⟨x, hx, rfl⟩, hi⟩
      exact ⟨true, by rw [if_pos hi, hx], rfl⟩

theorem filter_lt_prefix {l : List ℕ} (h : l.Pairwise (· < ·)) (bound : ℕ) :
    l.filter (· < bound) <+: l := by
  induction l with
  | nil => exact List.prefix_rfl
  | cons a l ih =>
    obtain ⟨hlt, hrest⟩ := List.pairwise_cons.mp h
    by_cases ha : a < bound
    · rw [List.filter_cons_of_pos (by simpa using ha)]
      exact List.prefix_cons_inj a |>.mpr (ih hrest)
    · have hnone : (a :: l).filter (· < bound) = [] := by
        apply List.filter_eq_nil_iff.mpr
        intro b hb
        rcases List.mem_cons.mp hb with rfl | hb
        · simpa using ha
        · have hab := hlt b hb
          simp only [decide_eq_true_eq]
          omega
      rw [hnone]
      exact List.nil_prefix

theorem getElem?_of_prefix {α : Type} {l l' : List α} (h : l <+: l') {k : ℕ} {a : α}
    (ha : l[k]? = some a) : l'[k]? = some a := by
  obtain ⟨rest, rfl⟩ := h
  obtain ⟨hk, -⟩ := List.getElem?_eq_some_iff.mp ha
  rw [List.getElem?_append_left hk, ha]

end Padding

section Rows

/-- One side of a sample in the batch: every position that is not padding has the chunk id of its
own pair, and the ids never decrease, so that each is one contiguous span. -/
structure SideRow (span : AlignmentPair → ℤ × ℤ) (pairs : List AlignmentPair) (len width : ℕ)
    (chunkId : List ℤ) : Prop where
  own : ∀ (k : ℕ) (pair : AlignmentPair) (p : ℕ), pairs[k]? = some pair → (span pair).1 ≤ p →
    p < (span pair).2 → p < len → chunkId[p]? = some (k : ℤ)
  valid : ∀ p < len, ∃ (k : ℕ) (pair : AlignmentPair), pairs[k]? = some pair ∧
    (span pair).1 ≤ p ∧ p < (span pair).2 ∧ chunkId[p]? = some (k : ℤ)
  monotone : ∀ p q : ℕ, p ≤ q → q < len → ∀ a b, chunkId[p]? = some a → chunkId[q]? = some b →
    a ≤ b
  contiguous : ∀ p q r : ℕ, p ≤ q → q ≤ r → r < len → chunkId[p]? = chunkId[r]? →
    chunkId[q]? = chunkId[p]?
  padding : ∀ p, len ≤ p → p < width → chunkId[p]? = some (-1)

variable {span : AlignmentPair → ℤ × ℤ} {pairs : List AlignmentPair} {n len width : ℕ}

theorem sideRow_of_spans (h : SpansTile span 0 pairs n) (hlen : len ≤ n) {row chunkId : List ℤ}
    (hown : ∀ (k : ℕ) (pair : AlignmentPair) (p : ℕ), pairs[k]? = some pair → (span pair).1 ≤ p →
      p < (span pair).2 → row[p]? = some (k : ℤ))
    (hkeep : ∀ p < len, chunkId[p]? = row[p]?)
    (hpad : ∀ p, len ≤ p → p < width → chunkId[p]? = some (-1)) :
    SideRow span pairs len width chunkId := by
  have hvalid : ∀ p < len, ∃ (k : ℕ) (pair : AlignmentPair), pairs[k]? = some pair ∧
      (span pair).1 ≤ p ∧ p < (span pair).2 ∧ chunkId[p]? = some (k : ℤ) := by
    intro p hp
    obtain ⟨k, pair, hk, hlo, hhi⟩ := h.exists_span (p := p) (by omega) (by omega)
    exact ⟨k, pair, hk, hlo, hhi, (hkeep p hp).trans (hown k pair p hk hlo hhi)⟩
  have hmono : ∀ p q : ℕ, p ≤ q → q < len → ∀ a b, chunkId[p]? = some a →
      chunkId[q]? = some b → a ≤ b := by
    intro p q hpq hq a b ha hb
    obtain ⟨k, pair, hk, hlo, hhi, hp'⟩ := hvalid p (by omega)
    obtain ⟨l, pair', hl, hlo', hhi', hq'⟩ := hvalid q hq
    obtain rfl := Option.some.inj (hp'.symm.trans ha)
    obtain rfl := Option.some.inj (hq'.symm.trans hb)
    exact Int.ofNat_le.mpr
      (h.index_le hk hl (Int.ofNat_le.mpr hpq) ⟨hlo, hhi⟩ ⟨hlo', hhi'⟩)
  refine ⟨?_, hvalid, hmono, ?_, hpad⟩
  · intro k pair p hk hlo hhi hp
    exact (hkeep p hp).trans (hown k pair p hk hlo hhi)
  · intro p q r hpq hqr hr heq
    obtain ⟨k, -, -, -, -, hp⟩ := hvalid p (by omega)
    obtain ⟨l, -, -, -, -, hq⟩ := hvalid q (by omega)
    have hkl := hmono p q hpq (by omega) _ _ hp hq
    have hlk := hmono q r hqr hr _ _ hq (heq.symm.trans hp)
    rw [hq, hp, le_antisymm hlk hkl]

theorem length_chunkIdRow (width : ℕ) (span : AlignmentPair → ℤ × ℤ)
    (pairs : List AlignmentPair) : (chunkIdRow width span pairs).length = width := by
  apply List.foldlRecOn (motive := fun row : List ℤ ↦ row.length = width)
  · exact List.length_replicate
  · intro row hrow x _
    rw [length_writeChunkId, hrow]

theorem length_partitionRow (width : ℕ) (start : AlignmentPair → ℤ)
    (pairs : List AlignmentPair) : (partitionRow width start pairs).length = width := by
  apply List.foldlRecOn (motive := fun row : List Bool ↦ row.length = width)
  · exact List.length_replicate
  · intro row hrow x _
    split
    · rw [List.length_set, hrow]
    · exact hrow

/-- The rows of one side of a sample as they leave the batch, padding reset where there is a mask. -/
def sideChunkIds (width : ℕ) (span : AlignmentPair → ℤ × ℤ) (mask : Option (List ℕ))
    (pairs : List AlignmentPair) : List ℤ :=
  mask.elim (chunkIdRow width span pairs) fun mask ↦
    List.zipWith (fun keep x ↦ if keep = 0 then -1 else x) mask (chunkIdRow width span pairs)

def sidePartition (width : ℕ) (start : AlignmentPair → ℤ) (mask : Option (List ℕ))
    (pairs : List AlignmentPair) : List Bool :=
  mask.elim (partitionRow width start pairs) fun mask ↦
    List.zipWith (fun keep x ↦ if keep = 0 then false else x) mask
      (partitionRow width start pairs)

/-- A row without a mask has no padding; a mask marks what follows the first `len` positions. -/
def PadsRight (n len width : ℕ) (mask : Option (List ℕ)) : Prop :=
  len ≤ n ∧ n ≤ width ∧ (mask = none → len = n) ∧ ∀ row ∈ mask, row = rightMask len width

variable {mask : Option (List ℕ)}

theorem sideRow_sideChunkIds (h : SpansTile span 0 pairs n) (hpad : PadsRight n len width mask) :
    SideRow span pairs len width (sideChunkIds width span mask pairs) := by
  obtain ⟨hlen, hn, hnone, hmask⟩ := hpad
  obtain ⟨hown, hrest⟩ := getElem?_chunkIdRow h hn
  have hrow := length_chunkIdRow width span pairs
  apply sideRow_of_spans h hlen hown
  · intro p hp
    cases mask with
    | none => rfl
    | some mask =>
      rw [hmask mask rfl, sideChunkIds, Option.elim_some,
        getElem?_masked (hlen.trans hn) hrow, if_pos hp]
  · intro p hp hp'
    cases mask with
    | none =>
      obtain rfl := hnone rfl
      exact hrest p hp hp'
    | some mask =>
      rw [hmask mask rfl, sideChunkIds, Option.elim_some,
        getElem?_masked (hlen.trans hn) hrow, if_neg (by omega), if_pos hp']

theorem truePositions_sidePartition (start : AlignmentPair → ℤ) (h : SpansTile span 0 pairs n)
    (hpad : PadsRight n len width mask)
    (hexact : ∀ pair : AlignmentPair, pair.exactPartition = true →
      (span pair).1 = start pair ∧ (span pair).2 = start pair + 1) :
    truePositions (sidePartition width start mask pairs) <+: exactPositions start pairs ∧
      (mask = none →
        truePositions (sidePartition width start mask pairs) = exactPositions start pairs) ∧
      ∀ p ∈ truePositions (sidePartition width start mask pairs), p < len := by
  obtain ⟨hlen, hn, hnone, hmask⟩ := hpad
  have hrow := length_partitionRow width start pairs
  have hexacts := truePositions_partitionRow h hn hexact
  cases mask with
  | none =>
    rw [sidePartition, Option.elim_none, hexacts]
    refine ⟨List.prefix_rfl, fun _ ↦ rfl, ?_⟩
    intro p hp
    obtain ⟨pair, hmem, rfl⟩ := List.mem_map.mp hp
    obtain ⟨hmem, hpair⟩ := List.mem_filter.mp hmem
    obtain ⟨hstart, hstop⟩ := hexact pair hpair
    have hbounds := h.pairwise.1 pair hmem (by omega)
    have hlenn := hnone rfl
    omega
  | some mask =>
    rw [sidePartition, Option.elim_some, hmask mask rfl,
      truePositions_masked (hlen.trans hn) hrow]
    refine ⟨?_, fun hnone ↦ (Option.some_ne_none _ hnone).elim, ?_⟩
    · rw [← hexacts]
      exact filter_lt_prefix (pairwise_indicesWhere _ _) len
    · intro p hp
      exact of_decide_eq_true (List.mem_filter.mp hp).2

end Rows

section Batch

theorem exactPartition_spans {pair : AlignmentPair} (h : pair.exactPartition = true) :
    pair.sEnd = pair.sStart + 1 ∧ pair.tEnd = pair.tStart + 1 := by
  simp only [AlignmentPair.exactPartition, decide_eq_true_eq] at h
  omega

theorem chunkIds_agree {pairs : List AlignmentPair} {nS nT lenS lenT widthS widthT : ℕ}
    {maskS maskT : Option (List ℕ)}
    (hs : SpansTile (fun p ↦ (p.sStart, p.sEnd)) 0 pairs nS)
    (ht : SpansTile (fun p ↦ (p.tStart, p.tEnd)) 0 pairs nT)
    (hpadS : PadsRight nS lenS widthS maskS) (hpadT : PadsRight nT lenT widthT maskT)
    {k p q : ℕ}
    (hp : (truePositions (sidePartition widthS (·.sStart) maskS pairs))[k]? = some p)
    (hq : (truePositions (sidePartition widthT (·.tStart) maskT pairs))[k]? = some q) :
    ∃ id, (sideChunkIds widthS (fun p ↦ (p.sStart, p.sEnd)) maskS pairs)[p]? = some id ∧
      (sideChunkIds widthT (fun p ↦ (p.tStart, p.tEnd)) maskT pairs)[q]? = some id := by
  obtain ⟨hstartS, -, hltS⟩ := truePositions_sidePartition (·.sStart) hs hpadS
    fun pair hpair ↦ ⟨rfl, (exactPartition_spans hpair).1⟩
  obtain ⟨hstartT, -, hltT⟩ := truePositions_sidePartition (·.tStart) ht hpadT
    fun pair hpair ↦ ⟨rfl, (exactPartition_spans hpair).2⟩
  have hp' := getElem?_of_prefix hstartS hp
  have hq' := getElem?_of_prefix hstartT hq
  rw [exactPositions, List.getElem?_map] at hp' hq'
  obtain ⟨pair, hpair, rfl⟩ := Option.map_eq_some_iff.mp hp'
  rw [hpair] at hq'
  obtain rfl := Option.some.inj hq'
  obtain ⟨hmem, hexact⟩ := List.mem_filter.mp (List.mem_of_getElem? hpair)
  obtain ⟨index, hindex⟩ := List.mem_iff_getElem?.mp hmem
  obtain ⟨hsEnd, htEnd⟩ := exactPartition_spans hexact
  have hsBounds := hs.pairwise.1 pair hmem (by dsimp only; omega)
  have htBounds := ht.pairwise.1 pair hmem (by dsimp only; omega)
  dsimp only at hsBounds htBounds
  refine ⟨index, ?_, ?_⟩
  · apply (sideRow_sideChunkIds hs hpadS).own index pair _ hindex
    · dsimp only
      omega
    · dsimp only
      omega
    · exact hltS _ (List.mem_of_getElem? hp)
  · apply (sideRow_sideChunkIds ht hpadT).own index pair _ hindex
    · dsimp only
      omega
    · dsimp only
      omega
    · exact hltT _ (List.mem_of_getElem? hq)

theorem getElem?_maskRows {α β : Type} (sentinel : β) (f : α → List β) {xs : List α} {i : ℕ}
    {x : α} (hx : xs[i]? = some x) {mask : Option (List (List ℕ))}
    (hmask : ∀ rows ∈ mask, i < rows.length) :
    (mask.elim (xs.map f) fun rows ↦ dropWhere sentinel rows (xs.map f))[i]? =
      some ((mask.bind fun rows ↦ rows[i]?).elim (f x) fun row ↦
        List.zipWith (fun keep x ↦ if keep = 0 then sentinel else x) row (f x)) := by
  cases mask with
  | none => rw [Option.elim_none, List.getElem?_map, hx]; rfl
  | some rows =>
    have hi := hmask rows rfl
    rw [Option.elim_some, dropWhere, List.getElem?_zipWith, List.getElem?_map, hx,
      Option.bind_some, List.getElem?_eq_getElem hi]
    rfl

/-- One side of a batch as it is collated: sequences as wide as their tensor and, if there is a
mask, padding on the right. -/
structure Collated (width : ℕ) (tokenLists : List (List String))
    (mask : Option (List (List ℕ))) : Prop where
  widths : ∀ tokens ∈ tokenLists, tokens.length = width
  rows : ∀ rows ∈ mask, rows.length = tokenLists.length
  right : ∀ rows ∈ mask, ∀ row ∈ rows, ∃ len ≤ width, row = rightMask len width

def unpaddedLen (width : ℕ) (mask : Option (List (List ℕ))) (i : ℕ) : ℕ :=
  (mask.bind fun rows ↦ rows[i]?).elim width List.sum

theorem sum_rightMask (len width : ℕ) : (rightMask len width).sum = len := by
  rw [rightMask, List.sum_append, List.sum_replicate, List.sum_replicate]
  simp

theorem Collated.padsRight {width i : ℕ} {tokenLists : List (List String)}
    {mask : Option (List (List ℕ))} (h : Collated width tokenLists mask) {tokens : List String}
    (hi : tokenLists[i]? = some tokens) :
    PadsRight tokens.length (unpaddedLen width mask i) width (mask.bind fun rows ↦ rows[i]?) := by
  have hwidth := h.widths tokens (List.mem_of_getElem? hi)
  obtain ⟨hlt, -⟩ := List.getElem?_eq_some_iff.mp hi
  cases mask with
  | none => exact ⟨hwidth.ge, hwidth.le, fun _ ↦ hwidth.symm, fun row hrow ↦ nomatch hrow⟩
  | some rows =>
    have hrows := h.rows rows rfl
    have hrow : rows[i]? = some rows[i] := List.getElem?_eq_getElem (by omega)
    obtain ⟨len, hlen, hright⟩ := h.right rows rfl rows[i] (List.getElem_mem _)
    rw [unpaddedLen, Option.bind_some, hrow, Option.elim_some, hright, sum_rightMask]
    refine ⟨by omega, hwidth.le, fun hnone ↦ (Option.some_ne_none _ hnone).elim, ?_⟩
    intro row hrow
    exact (Option.some.inj hrow).symm

variable {Score : Type} (scoring : Scoring Score) (maxCombinationLen : ℕ)

theorem getElem?_align {anchorLengths : List ℕ} {tS tT i : ℕ}
    {studentTokenLists teacherTokenLists : List (List String)}
    {studentMask teacherMask : Option (List (List ℕ))}
    (hS : Collated tS studentTokenLists studentMask)
    (hT : Collated tT teacherTokenLists teacherMask) {studentTokens teacherTokens : List String}
    (hs : studentTokenLists[i]? = some studentTokens)
    (ht : teacherTokenLists[i]? = some teacherTokens) :
    let pairs := alignSingle scoring maxCombinationLen anchorLengths studentTokens teacherTokens
    let batch := align scoring maxCombinationLen anchorLengths tS tT studentTokenLists
      teacherTokenLists studentMask teacherMask
    batch.studentChunkId[i]? = some (sideChunkIds tS (fun p ↦ (p.sStart, p.sEnd))
        (studentMask.bind fun rows ↦ rows[i]?) pairs) ∧
      batch.teacherChunkId[i]? = some (sideChunkIds tT (fun p ↦ (p.tStart, p.tEnd))
        (teacherMask.bind fun rows ↦ rows[i]?) pairs) ∧
      batch.studentExactPartitionMask[i]? = some (sidePartition tS (·.sStart)
        (studentMask.bind fun rows ↦ rows[i]?) pairs) ∧
      batch.teacherExactPartitionMask[i]? = some (sidePartition tT (·.tStart)
        (teacherMask.bind fun rows ↦ rows[i]?) pairs) := by
  intro pairs batch
  have hpairs : (List.zipWith (alignSingle scoring maxCombinationLen anchorLengths)
      studentTokenLists teacherTokenLists)[i]? = some pairs := by
    rw [List.getElem?_zipWith, hs, ht]
  have hlenS : ∀ rows ∈ studentMask, i < rows.length := by
    intro rows hrows
    rw [hS.rows rows hrows]
    exact (List.getElem?_eq_some_iff.mp hs).1
  have hlenT : ∀ rows ∈ teacherMask, i < rows.length := by
    intro rows hrows
    rw [hT.rows rows hrows]
    exact (List.getElem?_eq_some_iff.mp ht).1
  refine ⟨?_, ?_, ?_, ?_⟩
  · have hrow := getElem?_maskRows (-1) (chunkIdRow tS fun p ↦ (p.sStart, p.sEnd)) hpairs hlenS
    cases studentMask <;> cases teacherMask <;> exact hrow
  · have hrow := getElem?_maskRows (-1) (chunkIdRow tT fun p ↦ (p.tStart, p.tEnd)) hpairs hlenT
    cases studentMask <;> cases teacherMask <;> exact hrow
  · have hrow := getElem?_maskRows false (partitionRow tS (·.sStart)) hpairs hlenS
    cases studentMask <;> cases teacherMask <;> exact hrow
  · have hrow := getElem?_maskRows false (partitionRow tT (·.tStart)) hpairs hlenT
    cases studentMask <;> cases teacherMask <;> exact hrow

/-- The pairs of every sample cover its student positions and its teacher positions, each once and
in order. In the batch every position that is not padding has the chunk id of its own pair, and the
exact positions of the two sides go by the same chunks. -/
theorem alignment_tiles (anchorLengths : List ℕ) (hpos : ∀ k ∈ anchorLengths, 0 < k) :
    (∀ studentTokens teacherTokens : List String,
      let pairs := alignSingle scoring maxCombinationLen anchorLengths studentTokens teacherTokens
      let sSpans : List (ℤ × ℤ) :=
        (pairs.filter fun p ↦ p.sStart ≠ -1).map fun p ↦ (p.sStart, p.sEnd)
      let tSpans : List (ℤ × ℤ) :=
        (pairs.filter fun p ↦ p.tStart ≠ -1).map fun p ↦ (p.tStart, p.tEnd)
      Tiles (0 : ℤ) sSpans studentTokens.length ∧ Tiles (0 : ℤ) tSpans teacherTokens.length ∧
        (∀ p : ℤ, 0 ≤ p → p < studentTokens.length →
          (sSpans.countP fun x ↦ x.1 ≤ p ∧ p < x.2) = 1) ∧
        ∀ p : ℤ, 0 ≤ p → p < teacherTokens.length →
          (tSpans.countP fun x ↦ x.1 ≤ p ∧ p < x.2) = 1) ∧
    ∀ (tS tT : ℕ) (studentTokenLists teacherTokenLists : List (List String))
      (studentMask teacherMask : Option (List (List ℕ))),
      Collated tS studentTokenLists studentMask → Collated tT teacherTokenLists teacherMask →
      let batch := align scoring maxCombinationLen anchorLengths tS tT studentTokenLists
        teacherTokenLists studentMask teacherMask
      ∀ (i : ℕ) (studentTokens teacherTokens : List String),
        studentTokenLists[i]? = some studentTokens → teacherTokenLists[i]? = some teacherTokens →
        let pairs := alignSingle scoring maxCombinationLen anchorLengths studentTokens teacherTokens
        ∃ (sChunk tChunk : List ℤ) (sExact tExact : List Bool),
          batch.studentChunkId[i]? = some sChunk ∧ batch.teacherChunkId[i]? = some tChunk ∧
          batch.studentExactPartitionMask[i]? = some sExact ∧
          batch.teacherExactPartitionMask[i]? = some tExact ∧
          SideRow (fun p ↦ (p.sStart, p.sEnd)) pairs (unpaddedLen tS studentMask i) tS sChunk ∧
          SideRow (fun p ↦ (p.tStart, p.tEnd)) pairs (unpaddedLen tT teacherMask i) tT tChunk ∧
          (∀ k p q : ℕ, (truePositions sExact)[k]? = some p → (truePositions tExact)[k]? = some q →
            ∃ id, sChunk[p]? = some id ∧ tChunk[q]? = some id) ∧
          (studentMask = none → teacherMask = none →
            (truePositions sExact).length = (truePositions tExact).length) := by
  constructor
  · intro studentTokens teacherTokens pairs sSpans tSpans
    obtain ⟨hs, ht⟩ := spansTile_alignSingle scoring maxCombinationLen hpos studentTokens
      teacherTokens
    have hs' := hs.tiles le_rfl
    have ht' := ht.tiles le_rfl
    exact ⟨hs', ht', fun p hlo hhi ↦ hs'.countP hlo hhi, fun p hlo hhi ↦ ht'.countP hlo hhi⟩
  · intro tS tT studentTokenLists teacherTokenLists studentMask teacherMask hS hT batch i
      studentTokens teacherTokens hi hi' pairs
    obtain ⟨hs, ht⟩ := spansTile_alignSingle scoring maxCombinationLen hpos studentTokens
      teacherTokens
    have hpadS := hS.padsRight hi
    have hpadT := hT.padsRight hi'
    obtain ⟨hsChunk, htChunk, hsExact, htExact⟩ :=
      getElem?_align scoring maxCombinationLen hS hT hi hi'
    refine ⟨_, _, _, _, hsChunk, htChunk, hsExact, htExact, sideRow_sideChunkIds hs hpadS,
      sideRow_sideChunkIds ht hpadT, fun k p q hp hq ↦ chunkIds_agree hs ht hpadS hpadT hp hq, ?_⟩
    intro hnoneS hnoneT
    have hlenS := (truePositions_sidePartition (·.sStart) hs hpadS
      fun pair hpair ↦ ⟨rfl, (exactPartition_spans hpair).1⟩).2.1 (by rw [hnoneS]; rfl)
    have hlenT := (truePositions_sidePartition (·.tStart) ht hpadT
      fun pair hpair ↦ ⟨rfl, (exactPartition_spans hpair).2⟩).2.1 (by rw [hnoneT]; rfl)
    rw [hlenS, hlenT, exactPositions, exactPositions, List.length_map, List.length_map]

/-- One sample, a padding token on the teacher side. -/
theorem alignment_tiles_padded :
    let batch := align defaultScoring 4 [3] 2 3 [["a", "b"]] [["a", "b", "<pad>"]] none
      (some [[1, 1, 0]])
    ∃ (sChunk tChunk : List ℤ) (sExact tExact : List Bool),
      batch.studentChunkId[0]? = some sChunk ∧ batch.teacherChunkId[0]? = some tChunk ∧
      batch.studentExactPartitionMask[0]? = some sExact ∧
      batch.teacherExactPartitionMask[0]? = some tExact ∧ tChunk[2]? = some (-1) ∧
      ∀ k p q : ℕ, (truePositions sExact)[k]? = some p → (truePositions tExact)[k]? = some q →
        ∃ id, sChunk[p]? = some id ∧ tChunk[q]? = some id := by
  have hS : Collated 2 [["a", "b"]] none := by
    constructor
    · decide
    · intro rows hrows
      cases hrows
    · intro rows hrows
      cases hrows
  have hT : Collated 3 [["a", "b", "<pad>"]] (some [[1, 1, 0]]) := by
    constructor
    · decide
    · intro rows hrows
      obtain rfl := Option.some.inj hrows
      rfl
    · intro rows hrows row hrow
      obtain rfl := Option.some.inj hrows
      obtain rfl := List.mem_singleton.mp hrow
      exact ⟨2, by decide, rfl⟩
  obtain ⟨sChunk, tChunk, sExact, tExact, hs, ht, hs', ht', -, hside, hagree, -⟩ :=
    (alignment_tiles defaultScoring 4 [3] (by decide)).2 2 3 _ _ none _ hS hT 0
      ["a", "b"] ["a", "b", "<pad>"] rfl rfl
  exact ⟨sChunk, tChunk, sExact, tExact, hs, ht, hs', ht', hside.padding 2 le_rfl (by decide),
    hagree⟩

end Batch

end NemoRL.XToken.TokenAligner
