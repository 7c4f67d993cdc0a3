import Mathlib
import NemoRL.XToken.AlignmentScore

namespace NemoRL.XToken.TokenAligner

open Foundations.Blocks

variable {K : Type} [Field K] [LinearOrder K]

/-- The scores that `_align_dp` takes. -/
structure Weights (K : Type) where
  exactMatchScore : K
  combinationScoreMultiplier : K
  gapPenalty : K

def Weights.scoring (w : Weights K) : Scoring K where
  zero := 0
  add x y := x + y
  gt x y := y < x
  exactMatchScore := w.exactMatchScore
  mismatchScore := -w.exactMatchScore
  gapPenalty := w.gapPenalty
  combinationScore k := w.combinationScoreMultiplier * k

/-- The pairs of an alignment: one to one, a gap, or one token to a few of one text. -/
def Links (maxCombinationLen : ℕ) (ignoreLeadingCharDiff : Bool) (s t : List String) : Prop :=
  s.length = 1 ∧ t.length = 1 ∨ s.length + t.length = 1 ∨
    (s.length = 1 ∧ 2 ≤ t.length ∧ t.length ≤ maxCombinationLen ∨
      t.length = 1 ∧ 2 ≤ s.length ∧ s.length ≤ maxCombinationLen) ∧
    stringsEqualFlexible (String.join s) (String.join t) ignoreLeadingCharDiff = true

def pairScore (w : Weights K) (ignoreLeadingCharDiff : Bool) (s t : List String) : K :=
  if s.length = 1 ∧ t.length = 1 then
    if stringsEqualFlexible (String.join s) (String.join t) ignoreLeadingCharDiff then
      w.exactMatchScore else -w.exactMatchScore
  else if s = [] ∨ t = [] then w.gapPenalty
  else w.combinationScoreMultiplier * (max s.length t.length : ℕ)

structure MonotoneAlignment (maxCombinationLen : ℕ) (ignoreLeadingCharDiff : Bool)
    (student teacher : List String) (pairs : List (List String × List String)) : Prop where
  links : ∀ p ∈ pairs, Links maxCombinationLen ignoreLeadingCharDiff p.1 p.2
  student_eq : pairs.flatMap Prod.fst = student
  teacher_eq : pairs.flatMap Prod.snd = teacher

def totalScore (w : Weights K) (ignoreLeadingCharDiff : Bool)
    (pairs : List (List String × List String)) : K :=
  (pairs.map fun p ↦ pairScore w ignoreLeadingCharDiff p.1 p.2).sum

def sides (pairs : List AlignmentPair) : List (List String × List String) :=
  pairs.map fun p ↦ (p.sTokens, p.tTokens)

section Best

variable {w : Weights K} {S : Move → Prop} {value : Move → K} {c : Cell K}

/-- A cell with the best of some moves. -/
structure Best (S : Move → Prop) (value : Move → K) (c : Cell K) : Prop where
  mem : S c.move
  score_eq : c.score = value c.move
  le : ∀ move, S move → value move ≤ c.score

omit [Field K] in
theorem Best.congr {S' : Move → Prop} (h : Best S value c) (hiff : ∀ move, S move ↔ S' move) :
    Best S' value c :=
  ⟨(hiff _).mp h.mem, h.score_eq, fun move hmove ↦ h.le move ((hiff move).mpr hmove)⟩

omit [Field K] in
theorem Best.single {score : K} {move : Move} (hscore : score = value move) :
    Best (· = move) value ⟨score, move⟩ := by
  refine ⟨rfl, hscore, ?_⟩
  rintro move' rfl
  exact hscore.ge

theorem Best.improve (h : Best S value c) {score : K} {move : Move} (hscore : score = value move) :
    Best (fun move' ↦ S move' ∨ move' = move) value (c.improve w.scoring score move) := by
  subst hscore
  by_cases hgt : c.score < value move
  · have hbetter : c.improve w.scoring (value move) move = ⟨value move, move⟩ :=
      if_pos (decide_eq_true hgt)
    rw [hbetter]
    refine ⟨.inr rfl, rfl, ?_⟩
    rintro move' (hmove | rfl)
    · exact (h.le move' hmove).trans hgt.le
    · exact le_rfl
  · have hsame : c.improve w.scoring (value move) move = c :=
      if_neg fun hdec ↦ hgt (of_decide_eq_true hdec)
    rw [hsame]
    refine ⟨.inl h.mem, h.score_eq, ?_⟩
    rintro move' (hmove | rfl)
    · exact h.le move' hmove
    · exact not_lt.mp hgt

theorem Best.foldl (h : Best S value c) {ks : List ℕ} {text : ℕ → Bool} {score : ℕ → K}
    {move : ℕ → Move} (hscore : ∀ k ∈ ks, score k = value (move k)) :
    Best (fun move' ↦ S move' ∨ ∃ k ∈ ks, text k = true ∧ move' = move k) value
      (ks.foldl (fun best k ↦ if text k = true then best.improve w.scoring (score k) (move k)
        else best) c) := by
  induction ks generalizing c S with
  | nil => exact h.congr (by simp)
  | cons k ks ih =>
    obtain ⟨hk, hrest⟩ := List.forall_mem_cons.mp hscore
    rw [List.foldl_cons]
    by_cases htext : text k = true
    · rw [if_pos htext]
      refine (ih (h.improve hk) hrest).congr fun move' ↦ ?_
      simp only [List.exists_mem_cons_iff, htext, true_and, or_assoc]
    · rw [if_neg htext]
      refine (ih h hrest).congr fun move' ↦ ?_
      simp only [List.exists_mem_cons_iff, htext, Bool.false_eq_true, false_and, false_or]

end Best

section Spans

variable (w : Weights K) (maxCombinationLen : ℕ) (ignoreLeadingCharDiff : Bool)
  (studentTokens teacherTokens : List String)

/-- The spans of these sizes before `(i, j)` make a pair. -/
def SpanLinks (i j : ℕ) (size : ℕ × ℕ) : Prop :=
  size.1 ≤ i ∧ size.2 ≤ j ∧ Links maxCombinationLen ignoreLeadingCharDiff
    (slice studentTokens (i - size.1) i) (slice teacherTokens (j - size.2) j)

def spanScore (i j : ℕ) (size : ℕ × ℕ) : K :=
  pairScore w ignoreLeadingCharDiff (slice studentTokens (i - size.1) i)
    (slice teacherTokens (j - size.2) j)

variable {maxCombinationLen ignoreLeadingCharDiff studentTokens teacherTokens}

theorem length_span {tokens : List String} {i d : ℕ} (hd : d ≤ i) (hi : i ≤ tokens.length) :
    (slice tokens (i - d) i).length = d := by
  rw [length_slice hi]
  omega

theorem join_span_one {tokens : List String} {i : ℕ} (hpos : 0 < i) (hi : i ≤ tokens.length) :
    String.join (slice tokens (i - 1) i) = tokens.getD (i - 1) "" := by
  have hone : i - (i - 1) = 1 := by omega
  rw [slice_eq_map "" hi, hone]
  simp [String.join]

theorem stringsEqualFlexible_comm (a b : String) (ignore : Bool) :
    stringsEqualFlexible a b ignore = stringsEqualFlexible b a ignore := by
  rw [stringsEqualFlexible, stringsEqualFlexible]
  split
  · exact Bool.beq_comm
  · exact Bool.beq_comm

omit [LinearOrder K] in
theorem spanScore_diag {i j : ℕ} (hi : i < studentTokens.length) (hj : j < teacherTokens.length) :
    spanScore w ignoreLeadingCharDiff studentTokens teacherTokens (i + 1) (j + 1) (1, 1) =
      if stringsEqualFlexible (studentTokens.getD i "") (teacherTokens.getD j "")
        ignoreLeadingCharDiff then w.exactMatchScore else -w.exactMatchScore := by
  have hs := join_span_one (Nat.succ_pos i) (Nat.succ_le_of_lt hi)
  have ht := join_span_one (Nat.succ_pos j) (Nat.succ_le_of_lt hj)
  have hslen := length_span (Nat.succ_pos i) (Nat.succ_le_of_lt hi)
  have htlen := length_span (Nat.succ_pos j) (Nat.succ_le_of_lt hj)
  rw [spanScore, pairScore, if_pos ⟨hslen, htlen⟩, hs, ht]
  rfl

omit [LinearOrder K] in
theorem spanScore_gap {i j : ℕ} {size : ℕ × ℕ} (hi : i ≤ studentTokens.length)
    (hj : j ≤ teacherTokens.length) (hs : size.1 ≤ i) (ht : size.2 ≤ j)
    (hsize : size.1 + size.2 = 1) :
    spanScore w ignoreLeadingCharDiff studentTokens teacherTokens i j size = w.gapPenalty := by
  have hslen := length_span hs hi
  have htlen := length_span ht hj
  have hempty : slice studentTokens (i - size.1) i = [] ∨ slice teacherTokens (j - size.2) j = [] := by
    rcases Nat.eq_zero_or_pos size.1 with h | h
    · exact .inl (List.length_eq_zero_iff.mp (hslen.trans h))
    · exact .inr (List.length_eq_zero_iff.mp (htlen.trans (by omega)))
  rw [spanScore, pairScore, if_neg (by omega), if_pos hempty]

omit [LinearOrder K] in
theorem spanScore_comb {i j : ℕ} (size : ℕ × ℕ) (hi : i ≤ studentTokens.length)
    (hj : j ≤ teacherTokens.length) (hs : size.1 ≤ i) (ht : size.2 ≤ j) (hs0 : 0 < size.1)
    (ht0 : 0 < size.2) (hmany : 2 ≤ max size.1 size.2) :
    spanScore w ignoreLeadingCharDiff studentTokens teacherTokens i j size =
      w.combinationScoreMultiplier * (max size.1 size.2 : ℕ) := by
  have hslen := length_span hs hi
  have htlen := length_span ht hj
  have hsome : ¬ (slice studentTokens (i - size.1) i = [] ∨
      slice teacherTokens (j - size.2) j = []) := by
    rw [← List.length_eq_zero_iff, ← List.length_eq_zero_iff]
    omega
  rw [spanScore, pairScore, if_neg (by omega), if_neg hsome, hslen, htlen]

def Candidate (maxCombinationLen : ℕ) (ignoreLeadingCharDiff : Bool)
    (studentTokens teacherTokens : List String) (i j : ℕ) (move : Move) : Prop :=
  (((move = .diag ∨ move = .up) ∨ move = .left) ∨
    ∃ k ∈ List.range' 2 (min (j + 2) (maxCombinationLen + 1) - 2),
      stringsEqualFlexible (studentTokens.getD i "")
        (String.join (slice teacherTokens (j + 1 - k) (j + 1))) ignoreLeadingCharDiff = true ∧
        move = .combS1OverS2 k) ∨
    ∃ k ∈ List.range' 2 (min (i + 2) (maxCombinationLen + 1) - 2),
      stringsEqualFlexible (teacherTokens.getD j "")
        (String.join (slice studentTokens (i + 1 - k) (i + 1))) ignoreLeadingCharDiff = true ∧
        move = .combS2OverS1 k

/-- What a span of a size before `(i, j)` adds up to, with the cells `V`. -/
def spanValue (w : Weights K) (ignoreLeadingCharDiff : Bool)
    (studentTokens teacherTokens : List String) (V : ℕ → ℕ → K) (i j : ℕ) (size : ℕ × ℕ) : K :=
  V (i - size.1) (j - size.2) +
    spanScore w ignoreLeadingCharDiff studentTokens teacherTokens i j size

variable {w}

theorem bestCell_best {V : ℕ → ℕ → K} {rows : List (List (Cell K))} {row : List (Cell K)} {i j : ℕ}
    (hi : i < studentTokens.length) (hj : j < teacherTokens.length)
    (habove : ∀ i' ≤ i, ∀ j', (cellAt w.scoring (rows.getD i' []) j').score = V i' j')
    (hrow : (cellAt w.scoring row j).score = V (i + 1) j) :
    Best (Candidate maxCombinationLen ignoreLeadingCharDiff studentTokens teacherTokens i j)
      (fun move ↦ spanValue w ignoreLeadingCharDiff studentTokens teacherTokens V (i + 1) (j + 1)
        move.size)
      (bestCell w.scoring maxCombinationLen ignoreLeadingCharDiff studentTokens teacherTokens rows
        row (i + 1) (j + 1)) := by
  rw [bestCell]
  have hi' : i + 1 ≤ studentTokens.length := hi
  have hj' : j + 1 ≤ teacherTokens.length := hj
  apply Best.foldl
  · apply Best.foldl
    · apply Best.improve
      · apply Best.improve
        · apply Best.single
          rw [Move.size, spanValue, spanScore_diag w hi hj]
          exact congrArg (· + _) (habove i le_rfl j)
        · rw [Move.size, spanValue, spanScore_gap w hi' hj' (by simp) (by simp) rfl]
          exact congrArg (· + _) (habove i le_rfl (j + 1))
      · rw [Move.size, spanValue, spanScore_gap w hi' hj' (by simp) (by simp) rfl]
        exact congrArg (· + _) hrow
    · intro k hk
      have hbound := List.mem_range'_1.mp hk
      have hmax : max 1 k = k := by omega
      rw [Move.size, spanValue, spanScore_comb w (1, k) hi' hj' (Nat.succ_pos i)
        (by dsimp only; omega) Nat.one_pos (by dsimp only; omega) (by dsimp only; omega)]
      simp only [hmax]
      exact congrArg (· + _) (habove i le_rfl (j + 1 - k))
  · intro k hk
    have hbound := List.mem_range'_1.mp hk
    have hmax : max k 1 = k := by omega
    rw [Move.size, spanValue, spanScore_comb w (k, 1) hi' hj' (by dsimp only; omega) (Nat.succ_pos j)
      (by dsimp only; omega) Nat.one_pos (by dsimp only; omega)]
    simp only [hmax]
    exact congrArg (· + _) (habove (i + 1 - k) (by omega) j)

theorem spanLinks_of_candidate {i j : ℕ} (hi : i < studentTokens.length)
    (hj : j < teacherTokens.length) {move : Move}
    (h : Candidate maxCombinationLen ignoreLeadingCharDiff studentTokens teacherTokens i j move) :
    SpanLinks maxCombinationLen ignoreLeadingCharDiff studentTokens teacherTokens (i + 1) (j + 1)
      move.size := by
  have hi' : i + 1 ≤ studentTokens.length := hi
  have hj' : j + 1 ≤ teacherTokens.length := hj
  have hlinks : ∀ size : ℕ × ℕ, size.1 ≤ i + 1 → size.2 ≤ j + 1 →
      (size = (1, 1) ∨ size.1 + size.2 = 1 ∨
        (size.1 = 1 ∧ 2 ≤ size.2 ∧ size.2 ≤ maxCombinationLen ∨
          size.2 = 1 ∧ 2 ≤ size.1 ∧ size.1 ≤ maxCombinationLen) ∧
        stringsEqualFlexible (String.join (slice studentTokens (i + 1 - size.1) (i + 1)))
          (String.join (slice teacherTokens (j + 1 - size.2) (j + 1))) ignoreLeadingCharDiff = true) →
      SpanLinks maxCombinationLen ignoreLeadingCharDiff studentTokens teacherTokens (i + 1) (j + 1)
        size := by
    intro size hs ht hkind
    refine ⟨hs, ht, ?_⟩
    rw [Links, length_span hs hi', length_span ht hj']
    rcases hkind with rfl | hkind
    · exact .inl ⟨rfl, rfl⟩
    · exact .inr hkind
  have hs := join_span_one (Nat.succ_pos i) hi'
  have ht := join_span_one (Nat.succ_pos j) hj'
  rcases h with (((rfl | rfl) | rfl) | ⟨k, hk, htext, rfl⟩) | ⟨k, hk, htext, rfl⟩
  · exact hlinks _ (Nat.succ_pos i) (Nat.succ_pos j) (.inl rfl)
  · exact hlinks _ (Nat.succ_pos i) (Nat.zero_le _) (.inr (.inl rfl))
  · exact hlinks _ (Nat.zero_le _) (Nat.succ_pos j) (.inr (.inl rfl))
  · have hbound := List.mem_range'_1.mp hk
    refine hlinks (1, k) (Nat.succ_pos i) (by dsimp only; omega) (.inr (.inr ⟨.inl ?_, ?_⟩))
    · exact ⟨rfl, by dsimp only; omega, by dsimp only; omega⟩
    · exact (congrArg (stringsEqualFlexible · _ _) hs).trans htext
  · have hbound := List.mem_range'_1.mp hk
    refine hlinks (k, 1) (by dsimp only; omega) (Nat.succ_pos j) (.inr (.inr ⟨.inr ?_, ?_⟩))
    · exact ⟨rfl, by dsimp only; omega, by dsimp only; omega⟩
    · rw [stringsEqualFlexible_comm]
      exact (congrArg (stringsEqualFlexible · _ _) ht).trans htext

theorem candidate_of_spanLinks {i j : ℕ} (hi : i < studentTokens.length)
    (hj : j < teacherTokens.length) {size : ℕ × ℕ}
    (h : SpanLinks maxCombinationLen ignoreLeadingCharDiff studentTokens teacherTokens (i + 1) (j + 1)
      size) :
    ∃ move, Candidate maxCombinationLen ignoreLeadingCharDiff studentTokens teacherTokens i j move ∧
      move.size = size := by
  have hi' : i + 1 ≤ studentTokens.length := hi
  have hj' : j + 1 ≤ teacherTokens.length := hj
  obtain ⟨ds, dt⟩ := size
  obtain ⟨hds, hdt, hlinks⟩ := h
  dsimp only at hds hdt hlinks
  rw [Links, length_span hds hi', length_span hdt hj'] at hlinks
  rcases hlinks with ⟨rfl, rfl⟩ | hgap | ⟨⟨rfl, hlo, hhi⟩ | ⟨rfl, hlo, hhi⟩, htext⟩
  · exact ⟨.diag, .inl (.inl (.inl (.inl rfl))), rfl⟩
  · rcases Nat.eq_zero_or_pos ds with rfl | hpos
    · obtain rfl : dt = 1 := by omega
      exact ⟨.left, .inl (.inl (.inr rfl)), rfl⟩
    · obtain rfl : ds = 1 := by omega
      obtain rfl : dt = 0 := by omega
      exact ⟨.up, .inl (.inl (.inl (.inr rfl))), rfl⟩
  · have hs := join_span_one (Nat.succ_pos i) hi'
    refine ⟨.combS1OverS2 dt, .inl (.inr ⟨dt, List.mem_range'_1.mpr (by omega), ?_, rfl⟩), rfl⟩
    exact (congrArg (stringsEqualFlexible · _ _) hs).symm.trans htext
  · have ht := join_span_one (Nat.succ_pos j) hj'
    refine ⟨.combS2OverS1 ds, .inr ⟨ds, List.mem_range'_1.mpr (by omega), ?_, rfl⟩, rfl⟩
    rw [stringsEqualFlexible_comm] at htext
    exact (congrArg (stringsEqualFlexible · _ _) ht).symm.trans htext

end Spans

section Table

variable (w : Weights K) (maxCombinationLen : ℕ) (ignoreLeadingCharDiff : Bool)
  (studentTokens teacherTokens : List String)

def dp (i j : ℕ) : K :=
  (tableCell w.scoring maxCombinationLen ignoreLeadingCharDiff studentTokens teacherTokens i j).score

variable {w maxCombinationLen ignoreLeadingCharDiff studentTokens teacherTokens}

theorem size_of_border {i j : ℕ} (hi : i ≤ studentTokens.length) (hj : j ≤ teacherTokens.length)
    (hborder : i = 0 ∨ j = 0) {size : ℕ × ℕ} (h : SpanLinks maxCombinationLen
      ignoreLeadingCharDiff studentTokens teacherTokens i j size) : size.1 + size.2 = 1 := by
  obtain ⟨hs, ht, hlinks⟩ := h
  rw [Links, length_span hs hi, length_span ht hj] at hlinks
  omega

theorem spanLinks_gap {i j : ℕ} (hi : i ≤ studentTokens.length) (hj : j ≤ teacherTokens.length)
    {size : ℕ × ℕ} (hs : size.1 ≤ i) (ht : size.2 ≤ j) (hsize : size.1 + size.2 = 1) :
    SpanLinks maxCombinationLen ignoreLeadingCharDiff studentTokens teacherTokens i j size := by
  refine ⟨hs, ht, ?_⟩
  rw [Links, length_span hs hi, length_span ht hj]
  exact .inr (.inl hsize)

variable (w maxCombinationLen ignoreLeadingCharDiff studentTokens teacherTokens) in
/-- The equation of the table: a cell after the first takes the best spans before it. -/
structure OptimalCell (i j : ℕ) : Prop where
  links : SpanLinks maxCombinationLen ignoreLeadingCharDiff studentTokens teacherTokens i j
    (tableCell w.scoring maxCombinationLen ignoreLeadingCharDiff studentTokens teacherTokens i
      j).move.size
  score_eq : dp w maxCombinationLen ignoreLeadingCharDiff studentTokens teacherTokens i j =
    spanValue w ignoreLeadingCharDiff studentTokens teacherTokens
      (dp w maxCombinationLen ignoreLeadingCharDiff studentTokens teacherTokens) i j
      (tableCell w.scoring maxCombinationLen ignoreLeadingCharDiff studentTokens teacherTokens i
        j).move.size
  le : ∀ size, SpanLinks maxCombinationLen ignoreLeadingCharDiff studentTokens teacherTokens i j
    size → spanValue w ignoreLeadingCharDiff studentTokens teacherTokens
      (dp w maxCombinationLen ignoreLeadingCharDiff studentTokens teacherTokens) i j size ≤
        dp w maxCombinationLen ignoreLeadingCharDiff studentTokens teacherTokens i j

theorem optimalCell_of_gap {i j : ℕ} (hi : i ≤ studentTokens.length)
    (hj : j ≤ teacherTokens.length) (hborder : i = 0 ∨ j = 0) (size : ℕ × ℕ) (hs : size.1 ≤ i)
    (ht : size.2 ≤ j) (hsize : size.1 + size.2 = 1)
    (hmove : (tableCell w.scoring maxCombinationLen ignoreLeadingCharDiff studentTokens
      teacherTokens i j).move.size = size)
    (hscore : dp w maxCombinationLen ignoreLeadingCharDiff studentTokens teacherTokens i j =
      dp w maxCombinationLen ignoreLeadingCharDiff studentTokens teacherTokens (i - size.1)
        (j - size.2) + w.gapPenalty) :
    OptimalCell w maxCombinationLen ignoreLeadingCharDiff studentTokens teacherTokens i j := by
  have hvalue : ∀ size' : ℕ × ℕ, SpanLinks maxCombinationLen ignoreLeadingCharDiff studentTokens
      teacherTokens i j size' → spanValue w ignoreLeadingCharDiff studentTokens teacherTokens
        (dp w maxCombinationLen ignoreLeadingCharDiff studentTokens teacherTokens) i j size' =
          dp w maxCombinationLen ignoreLeadingCharDiff studentTokens teacherTokens i j := by
    intro size' hlinks
    have hsize' := size_of_border hi hj hborder hlinks
    have hs' := hlinks.1
    have ht' := hlinks.2.1
    have hsame : size' = size := Prod.ext (by omega) (by omega)
    rw [hsame, spanValue, spanScore_gap w hi hj hs ht hsize, hscore]
  have hlinks : SpanLinks maxCombinationLen ignoreLeadingCharDiff studentTokens teacherTokens i j
      size := spanLinks_gap hi hj hs ht hsize
  exact ⟨hmove ▸ hlinks, hmove ▸ (hvalue size hlinks).symm, fun size' h ↦ (hvalue size' h).le⟩

theorem optimalCell {i j : ℕ} (hi : i ≤ studentTokens.length) (hj : j ≤ teacherTokens.length)
    (hpos : 0 < i ∨ 0 < j) :
    OptimalCell w maxCombinationLen ignoreLeadingCharDiff studentTokens teacherTokens i j := by
  cases i with
  | zero =>
    cases j with
    | zero => omega
    | succ j =>
      have hcell := tableCell_left w.scoring maxCombinationLen ignoreLeadingCharDiff studentTokens
        teacherTokens hj
      exact optimalCell_of_gap hi hj (.inl rfl) (0, 1) le_rfl (Nat.succ_pos j) rfl
        (by rw [hcell]; rfl) (congrArg Cell.score hcell)
  | succ i =>
    cases j with
    | zero =>
      have hcell := tableCell_up w.scoring maxCombinationLen ignoreLeadingCharDiff studentTokens
        teacherTokens hi
      exact optimalCell_of_gap hi hj (.inr rfl) (1, 0) (Nat.succ_pos i) le_rfl rfl
        (by rw [hcell]; rfl) (congrArg Cell.score hcell)
    | succ j =>
      obtain ⟨rows, row, hcell, habove, hrow⟩ := tableCell_inner w.scoring maxCombinationLen
        ignoreLeadingCharDiff studentTokens teacherTokens hi hj
      have hbest := @bestCell_best _ _ _ w maxCombinationLen ignoreLeadingCharDiff studentTokens
        teacherTokens (dp w maxCombinationLen ignoreLeadingCharDiff studentTokens teacherTokens)
        rows row i j hi hj (fun i' hi' j' ↦ congrArg Cell.score (habove i' hi' j'))
        (congrArg Cell.score hrow)
      rw [← hcell] at hbest
      refine ⟨spanLinks_of_candidate hi hj hbest.mem, hbest.score_eq, ?_⟩
      intro size hlinks
      obtain ⟨move, hmove, rfl⟩ := candidate_of_spanLinks hi hj hlinks
      exact hbest.le move hmove

theorem dp_zero : dp w maxCombinationLen ignoreLeadingCharDiff studentTokens teacherTokens 0 0 = 0 :=
  congrArg Cell.score (tableCell_zero w.scoring maxCombinationLen ignoreLeadingCharDiff
    studentTokens teacherTokens)

theorem split_take {tokens front back : List String} {i : ℕ} (hi : i ≤ tokens.length)
    (h : front ++ back = tokens.take i) : back.length ≤ i ∧
      front = tokens.take (i - back.length) ∧ back = slice tokens (i - back.length) i := by
  have hlen : front.length + back.length = i := by
    rw [← List.length_append, h, List.length_take, Nat.min_eq_left hi]
  have hfront : i - back.length = front.length := by omega
  refine ⟨by omega, ?_, ?_⟩
  · rw [hfront, ← Nat.min_eq_left (by omega : front.length ≤ i), ← List.take_take, ← h,
      List.take_left' rfl]
  · rw [hfront, slice, ← hlen, Nat.add_sub_cancel_left, List.take_drop, hlen, ← h, List.drop_left]

variable [IsStrictOrderedRing K]

theorem totalScore_le {pairs : List (List String × List String)} {i j : ℕ}
    (hi : i ≤ studentTokens.length) (hj : j ≤ teacherTokens.length)
    (h : MonotoneAlignment maxCombinationLen ignoreLeadingCharDiff (studentTokens.take i)
      (teacherTokens.take j) pairs) : totalScore w ignoreLeadingCharDiff pairs ≤
        dp w maxCombinationLen ignoreLeadingCharDiff studentTokens teacherTokens i j := by
  induction pairs using List.reverseRecOn generalizing i j with
  | nil =>
    have hs := congrArg List.length h.student_eq
    have ht := congrArg List.length h.teacher_eq
    rw [List.length_take, Nat.min_eq_left hi, List.flatMap_nil, List.length_nil] at hs
    rw [List.length_take, Nat.min_eq_left hj, List.flatMap_nil, List.length_nil] at ht
    rw [← hs, ← ht, dp_zero]
    exact le_rfl
  | append_singleton pairs p ih =>
    obtain ⟨hlinks, hstudent, hteacher⟩ := h
    rw [List.flatMap_append, List.flatMap_singleton] at hstudent hteacher
    obtain ⟨hs, hsfront, hsback⟩ := split_take hi hstudent
    obtain ⟨ht, htfront, htback⟩ := split_take hj hteacher
    have hp : SpanLinks maxCombinationLen ignoreLeadingCharDiff studentTokens teacherTokens i j
        (p.1.length, p.2.length) := by
      refine ⟨hs, ht, ?_⟩
      rw [← hsback, ← htback]
      exact hlinks p (List.mem_append_right _ (List.mem_singleton_self p))
    have hpos : 0 < i ∨ 0 < j := by
      have hsize := hp.2.2
      rw [Links, length_span hs hi, length_span ht hj] at hsize
      dsimp only at hsize
      omega
    have hfront := ih ((Nat.sub_le _ _).trans hi) ((Nat.sub_le _ _).trans hj)
      ⟨fun q hq ↦ hlinks q (List.mem_append_left _ hq), hsfront, htfront⟩
    have hle := (optimalCell (w := w) hi hj hpos).le _ hp
    rw [spanValue, spanScore, ← hsback, ← htback] at hle
    rw [totalScore, List.map_append, List.sum_append, List.map_singleton, List.sum_singleton]
    exact (add_le_add hfront le_rfl).trans hle

omit [IsStrictOrderedRing K] in
/-- The walk back from a cell adds pairs that score what the cell holds. -/
theorem traceback_score {fuel i j : ℕ} (hfuel : i + j ≤ fuel) (hi : i ≤ studentTokens.length)
    (hj : j ≤ teacherTokens.length) {aligned : List AlignmentPair}
    (haligned : ∀ p ∈ sides aligned, Links maxCombinationLen ignoreLeadingCharDiff p.1 p.2) :
    (∀ p ∈ sides (traceback studentTokens teacherTokens (fun i j ↦ (tableCell w.scoring
      maxCombinationLen ignoreLeadingCharDiff studentTokens teacherTokens i j).move) fuel i j
        aligned), Links maxCombinationLen ignoreLeadingCharDiff p.1 p.2) ∧
    totalScore w ignoreLeadingCharDiff (sides (traceback studentTokens teacherTokens (fun i j ↦
      (tableCell w.scoring maxCombinationLen ignoreLeadingCharDiff studentTokens teacherTokens i
        j).move) fuel i j aligned)) =
      dp w maxCombinationLen ignoreLeadingCharDiff studentTokens teacherTokens i j +
        totalScore w ignoreLeadingCharDiff (sides aligned) := by
  induction fuel generalizing i j aligned with
  | zero =>
    obtain rfl : i = 0 := by omega
    obtain rfl : j = 0 := by omega
    rw [dp_zero, zero_add]
    exact ⟨haligned, rfl⟩
  | succ fuel ih =>
    rw [traceback]
    split
    · rename_i hpos
      have hcell : OptimalCell w maxCombinationLen ignoreLeadingCharDiff studentTokens
          teacherTokens i j := optimalCell hi hj hpos
      obtain ⟨move, hmove⟩ : ∃ move, move = (tableCell w.scoring maxCombinationLen
        ignoreLeadingCharDiff studentTokens teacherTokens i j).move := ⟨_, rfl⟩
      obtain ⟨hs, ht, hlinks⟩ := hmove ▸ hcell.links
      have hscore := hmove ▸ hcell.score_eq
      have hsize : 0 < move.size.1 + move.size.2 := by
        have hlen := hlinks
        rw [Links, length_span hs hi, length_span ht hj] at hlen
        omega
      dsimp only
      rw [← hmove, if_neg (by rintro rfl; exact absurd hsize (by decide))]
      have hlinks' : ∀ p ∈ sides (spanPair studentTokens teacherTokens i j move.size.1
          move.size.2 :: aligned), Links maxCombinationLen ignoreLeadingCharDiff p.1 p.2 :=
        List.forall_mem_cons.mpr ⟨hlinks, haligned⟩
      obtain ⟨hall, htotal⟩ := ih (i := i - move.size.1) (j := j - move.size.2) (by omega)
        (by omega) (by omega) hlinks'
      refine ⟨hall, htotal.trans ?_⟩
      rw [hscore, spanValue, add_assoc]
      rfl
    · obtain rfl : i = 0 := by omega
      obtain rfl : j = 0 := by omega
      rw [dp_zero, zero_add]
      exact ⟨haligned, rfl⟩

omit [Field K] [LinearOrder K] [IsStrictOrderedRing K] in
theorem traceback_origin (trace : ℕ → ℕ → Move) (fuel : ℕ) (aligned : List AlignmentPair) :
    traceback studentTokens teacherTokens trace fuel 0 0 aligned = aligned := by
  cases fuel with
  | zero => rfl
  | succ fuel => rw [traceback, if_neg (by omega)]

omit [Field K] [LinearOrder K] [IsStrictOrderedRing K] in
theorem traceback_fuel {trace : ℕ → ℕ → Move}
    (htrace : ∀ i ≤ studentTokens.length, ∀ j ≤ teacherTokens.length, (trace i j).Valid i j)
    {fuel fuel' i j : ℕ} (hfuel : i + j ≤ fuel) (hfuel' : i + j ≤ fuel')
    (hi : i ≤ studentTokens.length) (hj : j ≤ teacherTokens.length) (aligned : List AlignmentPair) :
    traceback studentTokens teacherTokens trace fuel i j aligned =
      traceback studentTokens teacherTokens trace fuel' i j aligned := by
  induction fuel generalizing fuel' i j aligned with
  | zero =>
    obtain rfl : i = 0 := by omega
    obtain rfl : j = 0 := by omega
    rw [traceback_origin, traceback_origin]
  | succ fuel ih =>
    by_cases hpos : i > 0 ∨ j > 0
    · obtain ⟨fuel', rfl⟩ : ∃ f, fuel' = f + 1 := ⟨fuel' - 1, by omega⟩
      obtain ⟨hs, ht, hsize⟩ := htrace i hi j hj
      have hmoves := hsize hpos
      have hmove : trace i j ≠ .blank := by
        intro hblank
        rw [hblank] at hmoves
        exact absurd hmoves (by decide)
      rw [traceback, traceback, if_pos hpos, if_pos hpos]
      dsimp only
      rw [if_neg hmove, if_neg hmove]
      exact ih (by omega) (by omega) (by omega) (by omega) _
    · obtain rfl : i = 0 := by omega
      obtain rfl : j = 0 := by omega
      rw [traceback_origin, traceback_origin]

variable (w maxCombinationLen ignoreLeadingCharDiff studentTokens teacherTokens) in
/-- `_align_dp` returns a monotone alignment of both sequences with its score, which no other
alignment exceeds. -/
theorem alignDp_optimal :
    let result : List AlignmentPair × K := alignDpScored w.scoring maxCombinationLen
      ignoreLeadingCharDiff studentTokens teacherTokens
    MonotoneAlignment maxCombinationLen ignoreLeadingCharDiff studentTokens teacherTokens
        (sides result.1) ∧
      totalScore w ignoreLeadingCharDiff (sides result.1) = result.2 ∧
      result.2 = dp w maxCombinationLen ignoreLeadingCharDiff studentTokens teacherTokens
        studentTokens.length teacherTokens.length ∧
      (∀ pairs, MonotoneAlignment maxCombinationLen ignoreLeadingCharDiff studentTokens
        teacherTokens pairs → totalScore w ignoreLeadingCharDiff pairs ≤ result.2) ∧
      Aligned 0 0 studentTokens teacherTokens result.1 ∧
      ∀ fuel ≥ studentTokens.length + teacherTokens.length,
        traceback studentTokens teacherTokens (fun i j ↦ readMove (tableCell w.scoring
          maxCombinationLen ignoreLeadingCharDiff studentTokens teacherTokens i j).move.text) fuel
            studentTokens.length teacherTokens.length [] = result.1 := by
  intro result
  have hresult : result.1 = alignDp w.scoring maxCombinationLen ignoreLeadingCharDiff studentTokens
      teacherTokens := alignDpScored_fst _ _ _ _ _
  have haligned : Aligned 0 0 studentTokens teacherTokens result.1 :=
    hresult ▸ aligned_alignDp w.scoring maxCombinationLen ignoreLeadingCharDiff studentTokens
      teacherTokens
  have hnone : ∀ p ∈ sides [], Links maxCombinationLen ignoreLeadingCharDiff p.1 p.2 :=
    List.forall_mem_nil _
  obtain ⟨hlinks, htotal⟩ := @traceback_score K _ _ w maxCombinationLen ignoreLeadingCharDiff
    studentTokens teacherTokens _ _ _ le_rfl le_rfl le_rfl [] hnone
  refine ⟨⟨?_, ?_, ?_⟩, ?_, rfl, ?_, haligned, ?_⟩
  · rw [hresult]
    exact hlinks
  · rw [sides, List.flatMap_map]
    exact haligned.student_eq
  · rw [sides, List.flatMap_map]
    exact haligned.teacher_eq
  · rw [hresult]
    exact htotal.trans (add_zero _)
  · intro pairs hpairs
    have hpairs' : MonotoneAlignment maxCombinationLen ignoreLeadingCharDiff
        (studentTokens.take studentTokens.length) (teacherTokens.take teacherTokens.length)
          pairs := by
      rw [List.take_length, List.take_length]
      exact hpairs
    exact totalScore_le le_rfl le_rfl hpairs'
  · intro fuel hfuel
    simp only [readMove_text]
    rw [hresult]
    refine traceback_fuel (fun i hi j hj ↦ ?_) hfuel le_rfl le_rfl le_rfl []
    exact dpTable_valid w.scoring maxCombinationLen ignoreLeadingCharDiff _ _ hi hj

theorem alignDp_optimal_combination :
    let result := alignDpScored (⟨3, 3 / 2, -3 / 2⟩ : Weights ℚ).scoring 4 false ["ab", "c"]
      ["a", "b", "c"]
    MonotoneAlignment 4 false ["ab", "c"] ["a", "b", "c"] (sides result.1) ∧
      totalScore ⟨3, 3 / 2, -3 / 2⟩ false (sides result.1) = result.2 ∧
      ∀ pairs, MonotoneAlignment 4 false ["ab", "c"] ["a", "b", "c"] pairs →
        totalScore ⟨3, 3 / 2, -3 / 2⟩ false pairs ≤ result.2 := by
  obtain ⟨halignment, htotal, -, hbest, -⟩ :=
    alignDp_optimal (⟨3, 3 / 2, -3 / 2⟩ : Weights ℚ) 4 false ["ab", "c"] ["a", "b", "c"]
  exact ⟨halignment, htotal, hbest⟩

end Table

end NemoRL.XToken.TokenAligner
