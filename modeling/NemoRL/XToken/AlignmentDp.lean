import Mathlib
import NemoRL.Foundations.Recurrences
import NemoRL.XToken.TokenAligner

namespace NemoRL.XToken.TokenAligner

open Foundations.Blocks Foundations.Recurrences

/-- A side of a pair that starts at a position: its tokens with their span, or no token. -/
def SideAt (tokens : List String) (start stop : ℤ) (lo : ℕ) : Prop :=
  (tokens = [] ∧ start = -1 ∧ stop = -1) ∨
    (tokens ≠ [] ∧ start = lo ∧ stop = lo + tokens.length)

/-- Pairs whose student spans and teacher spans follow one another from two positions. -/
def Follow : ℕ → ℕ → List AlignmentPair → Prop
  | _, _, [] => True
  | s, t, p :: pairs => SideAt p.sTokens p.sStart p.sEnd s ∧ SideAt p.tTokens p.tStart p.tEnd t ∧
      Follow (s + p.sTokens.length) (t + p.tTokens.length) pairs

/-- Pairs that follow one another and hold two token sequences. -/
structure Aligned (s t : ℕ) (student teacher : List String) (pairs : List AlignmentPair) :
    Prop where
  follow : Follow s t pairs
  student_eq : pairs.flatMap (·.sTokens) = student
  teacher_eq : pairs.flatMap (·.tTokens) = teacher

section Pairs

variable {s t : ℕ} {student teacher student' teacher' : List String}
  {pairs pairs' : List AlignmentPair}

theorem follow_append : Follow s t (pairs ++ pairs') ↔ Follow s t pairs ∧
    Follow (s + (pairs.flatMap (·.sTokens)).length) (t + (pairs.flatMap (·.tTokens)).length)
      pairs' := by
  induction pairs generalizing s t with
  | nil => simp [Follow]
  | cons p pairs ih =>
    simp only [List.cons_append, Follow, ih, List.flatMap_cons, List.length_append, and_assoc,
      Nat.add_assoc]

theorem Aligned.nil (s t : ℕ) : Aligned s t [] [] [] := ⟨trivial, rfl, rfl⟩

theorem Aligned.append (h : Aligned s t student teacher pairs)
    (h' : Aligned (s + student.length) (t + teacher.length) student' teacher' pairs') :
    Aligned s t (student ++ student') (teacher ++ teacher') (pairs ++ pairs') := by
  constructor
  · rw [follow_append, h.student_eq, h.teacher_eq]
    exact ⟨h.follow, h'.follow⟩
  · rw [List.flatMap_append, h.student_eq, h'.student_eq]
  · rw [List.flatMap_append, h.teacher_eq, h'.teacher_eq]

theorem SideAt.length_eq {tokens : List String} {start stop : ℤ} {lo : ℕ}
    (h : SideAt tokens start stop lo) (hne : tokens ≠ []) :
    start = lo ∧ stop = lo + tokens.length := by
  rcases h with ⟨hnil, -⟩ | ⟨-, h⟩
  · exact absurd hnil hne
  · exact h

theorem SideAt.shift {tokens : List String} {start stop : ℤ} {lo : ℕ}
    (h : SideAt tokens start stop lo) (shift : ℕ) :
    SideAt tokens (shiftIndex start shift) (shiftIndex stop shift) (shift + lo) := by
  rcases h with ⟨hnil, rfl, rfl⟩ | ⟨hne, rfl, rfl⟩
  · exact .inl ⟨hnil, rfl, rfl⟩
  · refine .inr ⟨hne, ?_, ?_⟩ <;> rw [shiftIndex, if_pos (by omega)] <;> push_cast <;> ring

theorem aligned_oneToOne (tokens : List String) (s t : ℕ) :
    Aligned s t tokens tokens (oneToOne tokens s t) := by
  have hfollow : ∀ k, Follow (s + k) (t + k) ((tokens.zipIdx k).map fun x ↦
      { sTokens := [x.1], tTokens := [x.1], sStart := (s : ℤ) + x.2, sEnd := (s : ℤ) + x.2 + 1,
        tStart := (t : ℤ) + x.2, tEnd := (t : ℤ) + x.2 + 1 }) := by
    induction tokens with
    | nil =>
      intro k
      trivial
    | cons token tokens ih =>
      intro k
      rw [List.zipIdx_cons, List.map_cons]
      refine ⟨.inr ⟨by simp, by simp, by simp⟩, .inr ⟨by simp, by simp, by simp⟩, ?_⟩
      exact ih (k + 1)
  have htokens : (tokens.zipIdx.flatMap fun x ↦ [x.1]) = tokens := by
    rw [← List.map_eq_flatMap]
    exact List.zipIdx_map_fst 0 tokens
  constructor
  · exact hfollow 0
  · rw [oneToOne, List.flatMap_map]
    exact htokens
  · rw [oneToOne, List.flatMap_map]
    exact htokens

theorem splits_eq {p : AlignmentPair} (h : p.splits = true) :
    p.sTokens ≠ [] ∧ p.tTokens = p.sTokens := by
  simp only [AlignmentPair.splits, decide_eq_true_eq] at h
  refine ⟨?_, h.2.2.symm⟩
  intro hnil
  rw [hnil] at h
  simp at h

theorem aligned_shiftPairs (h : Aligned s t student teacher pairs) (shiftS shiftT : ℕ) :
    Aligned (shiftS + s) (shiftT + t) student teacher (shiftPairs pairs shiftS shiftT) := by
  obtain ⟨hfollow, rfl, rfl⟩ := h
  induction pairs generalizing s t with
  | nil => exact .nil _ _
  | cons p pairs ih =>
    obtain ⟨hs, ht, hrest⟩ := hfollow
    have htail := ih hrest
    rw [← Nat.add_assoc, ← Nat.add_assoc] at htail
    rw [List.flatMap_cons, List.flatMap_cons, shiftPairs, List.flatMap_cons]
    refine Aligned.append ?_ htail
    have hs' := hs.shift shiftS
    have ht' := ht.shift shiftT
    dsimp only
    split_ifs with hsplit
    · obtain ⟨hne, heq⟩ := splits_eq hsplit.1
      rw [heq] at ht' ⊢
      rw [(hs'.length_eq hne).1, (ht'.length_eq hne).1]
      exact aligned_oneToOne _ _ _
    · exact ⟨⟨hs', ht', trivial⟩, List.append_nil _, List.append_nil _⟩

end Pairs

section Dp

/-- A move into a cell takes tokens that are there, and there is one into every cell but the
first. -/
def Move.Valid (move : Move) (i j : ℕ) : Prop :=
  move.size.1 ≤ i ∧ move.size.2 ≤ j ∧ (0 < i ∨ 0 < j → 0 < move.size.1 + move.size.2)

theorem diag_valid {i j : ℕ} (hi : 0 < i) (hj : 0 < j) : Move.diag.Valid i j :=
  ⟨hi, hj, fun _ ↦ Nat.succ_pos 1⟩

theorem up_valid {i : ℕ} (hi : 0 < i) (j : ℕ) : Move.up.Valid i j :=
  ⟨hi, Nat.zero_le j, fun _ ↦ Nat.one_pos⟩

theorem left_valid (i : ℕ) {j : ℕ} (hj : 0 < j) : Move.left.Valid i j :=
  ⟨Nat.zero_le i, hj, fun _ ↦ Nat.one_pos⟩

variable {Score : Type} (scoring : Scoring Score) (maxCombinationLen : ℕ)
  (ignoreLeadingCharDiff : Bool) (studentTokens teacherTokens : List String)

theorem improve_move {P : Move → Prop} {best : Cell Score} {score : Score} {move : Move}
    (h : P best.move) (hmove : P move) : P (best.improve scoring score move).move := by
  rw [Cell.improve]
  split
  · exact hmove
  · exact h

/-- Whatever the scores, the best move into a cell is a step or a combination of one text. -/
theorem bestCell_move {P : Move → Prop} (rows : List (List (Cell Score)))
    (row : List (Cell Score)) {i j : ℕ} (hdiag : P .diag) (hup : P .up) (hleft : P .left)
    (hs1 : ∀ k, 2 ≤ k → k ≤ j → stringsEqualFlexible (studentTokens.getD (i - 1) "")
      (String.join (slice teacherTokens (j - k) j)) ignoreLeadingCharDiff = true →
        P (.combS1OverS2 k))
    (hs2 : ∀ k, 2 ≤ k → k ≤ i → stringsEqualFlexible (teacherTokens.getD (j - 1) "")
      (String.join (slice studentTokens (i - k) i)) ignoreLeadingCharDiff = true →
        P (.combS2OverS1 k)) :
    P (bestCell scoring maxCombinationLen ignoreLeadingCharDiff studentTokens teacherTokens rows
      row i j).move := by
  rw [bestCell]
  apply List.foldlRecOn (motive := fun best : Cell Score ↦ P best.move)
  · apply List.foldlRecOn (motive := fun best : Cell Score ↦ P best.move)
    · apply improve_move
      · apply improve_move
        · exact hdiag
        · exact hup
      · exact hleft
    · intro best hbest k hk
      have hbound := List.mem_range'_1.mp hk
      split
      · rename_i htext
        exact improve_move scoring hbest (hs1 k (by omega) (by omega) htext)
      · exact hbest
  · intro best hbest k hk
    have hbound := List.mem_range'_1.mp hk
    split
    · rename_i htext
      exact improve_move scoring hbest (hs2 k (by omega) (by omega) htext)
    · exact hbest

theorem bestCell_valid (rows : List (List (Cell Score))) (row : List (Cell Score)) {i j : ℕ}
    (hi : 0 < i) (hj : 0 < j) :
    (bestCell scoring maxCombinationLen ignoreLeadingCharDiff studentTokens teacherTokens rows row
      i j).move.Valid i j := by
  apply bestCell_move (P := fun move ↦ move.Valid i j)
  · exact diag_valid hi hj
  · exact up_valid hi j
  · exact left_valid i hj
  · intro k hk hkj _
    exact ⟨hi, hkj, fun _ ↦ Nat.add_pos_left Nat.one_pos k⟩
  · intro k hk hki _
    exact ⟨hki, hj, fun _ ↦ Nat.add_pos_right k Nat.one_pos⟩

/-- What holds of the moves of the borders and of every best move holds in the whole table. -/
theorem dpTable_move {P : ℕ → ℕ → Move → Prop} (hblank : P 0 0 .blank)
    (hleft : ∀ j, P 0 (j + 1) .left) (hup : ∀ i, P (i + 1) 0 .up)
    (hbest : ∀ rows row i j, P (i + 1) (j + 1) (bestCell scoring maxCombinationLen
      ignoreLeadingCharDiff studentTokens teacherTokens rows row (i + 1) (j + 1)).move)
    {i j : ℕ} (hi : i ≤ studentTokens.length) (hj : j ≤ teacherTokens.length) :
    P i j (cellAt scoring ((dpTable scoring maxCombinationLen ignoreLeadingCharDiff studentTokens
      teacherTokens).getD i []) j).move := by
  let RowHolds : ℕ → List (Cell Score) → Prop := fun i row ↦
    ∀ j ≤ teacherTokens.length, ∃ cell, row[j]? = some cell ∧ P i j cell.move
  have hfirst : RowHolds 0 (firstRow scoring teacherTokens) := by
    apply grow_induct
    · exact hblank
    · intro row k
      exact hleft k
  have hnext : ∀ rows k, RowHolds (k + 1) (nextRow scoring maxCombinationLen
      ignoreLeadingCharDiff studentTokens teacherTokens rows (k + 1)) := by
    intro rows k
    apply grow_induct
    · exact hup k
    · intro row j
      exact hbest rows row k j
  obtain ⟨row, hrow, hholds⟩ : ∃ row, (dpTable scoring maxCombinationLen ignoreLeadingCharDiff
      studentTokens teacherTokens)[i]? = some row ∧ RowHolds i row :=
    grow_induct hfirst hnext studentTokens.length i hi
  obtain ⟨cell, hcell, hmove⟩ := hholds j hj
  rw [List.getD_eq_getElem?_getD, hrow, Option.getD_some, cellAt,
    List.getD_eq_getElem?_getD, hcell, Option.getD_some]
  exact hmove

theorem dpTable_valid {i j : ℕ} (hi : i ≤ studentTokens.length) (hj : j ≤ teacherTokens.length) :
    (cellAt scoring ((dpTable scoring maxCombinationLen ignoreLeadingCharDiff studentTokens
      teacherTokens).getD i []) j).move.Valid i j := by
  apply dpTable_move (P := fun i j move ↦ move.Valid i j) _ _ _ _ _ _ _ _ _ hi hj
  · exact ⟨le_rfl, le_rfl, fun h ↦ by omega⟩
  · exact fun j ↦ left_valid 0 (Nat.succ_pos j)
  · exact fun i ↦ up_valid (Nat.succ_pos i) 0
  · exact fun rows row i j ↦ bestCell_valid _ _ _ _ _ rows row (Nat.succ_pos i) (Nat.succ_pos j)

theorem sideAt_slice {tokens : List String} {i d : ℕ} (hd : d ≤ i) (hi : i ≤ tokens.length) :
    SideAt (slice tokens (i - d) i) (if d = 0 then -1 else (i - d : ℕ))
      (if d = 0 then -1 else i) (i - d) ∧ (slice tokens (i - d) i).length = d := by
  have hlen : (slice tokens (i - d) i).length = d := by
    rw [length_slice hi]
    omega
  refine ⟨?_, hlen⟩
  by_cases h0 : d = 0
  · rw [if_pos h0, if_pos h0]
    exact .inl ⟨List.length_eq_zero_iff.mp (by omega), rfl, rfl⟩
  · rw [if_neg h0, if_neg h0, SideAt, hlen]
    refine .inr ⟨?_, rfl, by omega⟩
    intro hnil
    rw [hnil] at hlen
    exact h0 hlen.symm

theorem slice_append_drop {tokens : List String} {i d : ℕ} (hd : d ≤ i) :
    slice tokens (i - d) i ++ tokens.drop i = tokens.drop (i - d) := by
  have hdrop : (tokens.drop (i - d)).drop (i - (i - d)) = tokens.drop i := by
    rw [List.drop_drop]
    congr 1
    omega
  rw [slice, ← hdrop, List.take_append_drop]

variable {studentTokens teacherTokens}

theorem aligned_traceback {trace : ℕ → ℕ → Move}
    (htrace : ∀ i ≤ studentTokens.length, ∀ j ≤ teacherTokens.length, (trace i j).Valid i j)
    {fuel i j : ℕ} (hfuel : i + j ≤ fuel) (hi : i ≤ studentTokens.length)
    (hj : j ≤ teacherTokens.length) {aligned : List AlignmentPair}
    (h : Aligned i j (studentTokens.drop i) (teacherTokens.drop j) aligned) :
    Aligned 0 0 studentTokens teacherTokens
      (traceback studentTokens teacherTokens trace fuel i j aligned) := by
  induction fuel generalizing i j aligned with
  | zero =>
    obtain rfl : i = 0 := by omega
    obtain rfl : j = 0 := by omega
    exact h
  | succ fuel ih =>
    rw [traceback]
    split
    · rename_i hpos
      obtain ⟨hds, hdt, hsize⟩ := htrace i hi j hj
      have hmoves := hsize hpos
      dsimp only
      rw [if_neg (by rintro hblank; rw [hblank] at hmoves; exact absurd hmoves (by decide))]
      apply ih (by omega) (by omega) (by omega)
      obtain ⟨hs, hslen⟩ := sideAt_slice hds hi
      obtain ⟨ht, htlen⟩ := sideAt_slice hdt hj
      constructor
      · refine ⟨hs, ht, ?_⟩
        rw [spanPair, hslen, htlen, Nat.sub_add_cancel hds, Nat.sub_add_cancel hdt]
        exact h.follow
      · rw [List.flatMap_cons, h.student_eq]
        exact slice_append_drop hds
      · rw [List.flatMap_cons, h.teacher_eq]
        exact slice_append_drop hdt
    · obtain rfl : i = 0 := by omega
      obtain rfl : j = 0 := by omega
      exact h

variable (studentTokens teacherTokens) in
theorem aligned_alignDp : Aligned 0 0 studentTokens teacherTokens
    (alignDp scoring maxCombinationLen ignoreLeadingCharDiff studentTokens teacherTokens) := by
  apply aligned_traceback
  · intro i hi j hj
    exact dpTable_valid scoring maxCombinationLen ignoreLeadingCharDiff _ _ hi hj
  · exact le_rfl
  · exact le_rfl
  · exact le_rfl
  · rw [List.drop_length, List.drop_length]
    exact .nil _ _

end Dp

section Anchors

variable {studentTokens teacherTokens : List String}

/-- Spans of the same tokens on both sides. -/
structure IsAnchor (studentTokens teacherTokens : List String) (anchor : ℕ × ℕ × ℕ) : Prop where
  student_le : anchor.1 + anchor.2.2 ≤ studentTokens.length
  teacher_le : anchor.2.1 + anchor.2.2 ≤ teacherTokens.length
  pos : 0 < anchor.2.2

theorem isAnchor_of_potential {anchorLen : ℕ} (hpos : 0 < anchorLen) {anchor : ℕ × ℕ × ℕ}
    (h : anchor ∈ potentialAnchors studentTokens teacherTokens anchorLen) :
    IsAnchor studentTokens teacherTokens anchor := by
  obtain ⟨i, hi, hmatch⟩ := List.mem_filterMap.mp h
  have hi' := List.mem_range.mp hi
  dsimp only at hmatch
  split at hmatch
  · rename_i j hs hteacher
    obtain rfl := Option.some.inj hmatch
    have hj : j ∈ ngramPositions teacherTokens (slice studentTokens i (i + anchorLen)) := by
      rw [hteacher]
      exact List.mem_singleton_self j
    have hj' := List.mem_range.mp (List.mem_filter.mp hj).1
    rw [length_slice (by omega)] at hj'
    refine ⟨?_, ?_, hpos⟩ <;> dsimp only <;> omega
  · cases hmatch

def Apart (a b : ℕ × ℕ × ℕ) : Prop := a.1 + a.2.2 ≤ b.1 ∨ b.1 + b.2.2 ≤ a.1

theorem apart_symm {a b : ℕ × ℕ × ℕ} (h : Apart a b) : Apart b a := Or.symm h

/-- What has been selected lies apart and is marked as used. -/
structure Selection.Disjoint (s : Selection) (all : List (ℕ × ℕ × ℕ)) : Prop where
  apart : s.selected.Pairwise Apart
  used : ∀ a ∈ s.selected, ∀ x, a.1 ≤ x → x < a.1 + a.2.2 → x ∈ s.usedStudent
  subset : ∀ a ∈ s.selected, a ∈ all

theorem take_disjoint {s : Selection} {all : List (ℕ × ℕ × ℕ)} (h : s.Disjoint all)
    {anchor : ℕ × ℕ × ℕ} (hall : anchor ∈ all) (hpos : ∀ a ∈ all, 0 < a.2.2) :
    (s.take anchor).Disjoint all := by
  obtain ⟨i, j, k⟩ := anchor
  rw [Selection.take]
  split
  · rename_i hfree
    have hunused : ∀ x, i ≤ x → x < i + k → x ∉ s.usedStudent := by
      intro x hlo hhi
      have hmem : x ∈ List.range' i k := List.mem_range'_1.mpr ⟨hlo, hhi⟩
      exact of_decide_eq_true (List.all_eq_true.mp hfree.1 x hmem)
    constructor
    · rw [List.pairwise_append]
      refine ⟨h.apart, List.pairwise_singleton _ _, ?_⟩
      intro a ha b hb
      obtain rfl := List.mem_singleton.mp hb
      have hk := hpos _ hall
      have hak := hpos a (h.subset a ha)
      -- A token of both would be used and not used.
      by_contra hnot
      simp only [Apart, not_or, not_le] at hnot
      have hmid := h.used a ha (max a.1 i) (by omega) (by dsimp only at *; omega)
      exact hunused (max a.1 i) (by omega) (by dsimp only at *; omega) hmid
    · intro a ha x hlo hhi
      rcases List.mem_append.mp ha with ha | ha
      · exact List.mem_append_left _ (h.used a ha x hlo hhi)
      · obtain rfl := List.mem_singleton.mp ha
        exact List.mem_append_right _ (List.mem_range'_1.mpr ⟨hlo, hhi⟩)
    · intro a ha
      rcases List.mem_append.mp ha with ha | ha
      · exact h.subset a ha
      · obtain rfl := List.mem_singleton.mp ha
        exact hall
  · exact h

def AnchorsFrom (studentTokens teacherTokens : List String) :
    ℕ → ℕ → List (ℕ × ℕ × ℕ) → Prop
  | _, _, [] => True
  | lastI, lastJ, (i, j, k) :: rest => lastI ≤ i ∧ lastJ ≤ j ∧ i + k ≤ studentTokens.length ∧
      j + k ≤ teacherTokens.length ∧ slice studentTokens i (i + k) = slice teacherTokens j (j + k) ∧
      AnchorsFrom studentTokens teacherTokens (i + k) (j + k) rest

theorem anchorsFrom_validate {anchors : List (ℕ × ℕ × ℕ)}
    (hanchor : ∀ a ∈ anchors, IsAnchor studentTokens teacherTokens a)
    (hsorted : anchors.Pairwise fun a b ↦ a.1 + a.2.2 ≤ b.1) {lastI lastJ : ℕ}
    (hlast : ∀ a ∈ anchors, lastI ≤ a.1) :
    AnchorsFrom studentTokens teacherTokens lastI lastJ
      (validateAnchors studentTokens teacherTokens ((lastJ : ℤ) - 1) anchors) := by
  induction anchors generalizing lastI lastJ with
  | nil => trivial
  | cons a anchors ih =>
    obtain ⟨i, j, k⟩ := a
    obtain ⟨hfirst, hrest⟩ := List.forall_mem_cons.mp hanchor
    obtain ⟨hbefore, hsorted⟩ := List.pairwise_cons.mp hsorted
    obtain ⟨hi, hlast⟩ := List.forall_mem_cons.mp hlast
    rw [validateAnchors]
    split
    · rename_i hnext
      refine ⟨hi, by omega, hfirst.student_le, hfirst.teacher_le, hnext.2, ?_⟩
      have hlastJ : (j : ℤ) + k - 1 = ((j + k : ℕ) : ℤ) - 1 := by push_cast; rfl
      rw [hlastJ]
      exact ih hrest hsorted hbefore
    · exact ih hrest hsorted hlast

variable (studentTokens teacherTokens) in
theorem anchorsFrom_findAnchors {anchorLengths : List ℕ} (hpos : ∀ k ∈ anchorLengths, 0 < k) :
    AnchorsFrom studentTokens teacherTokens 0 0
      (findAnchors studentTokens teacherTokens anchorLengths) := by
  let all := (anchorLengths.flatMap (potentialAnchors studentTokens teacherTokens)).mergeSort
    anchorOrder
  have hall : ∀ a ∈ all, IsAnchor studentTokens teacherTokens a := by
    intro a ha
    obtain ⟨k, hk, ha⟩ := List.mem_flatMap.mp (List.mem_mergeSort.mp ha)
    exact isAnchor_of_potential (hpos k hk) ha
  have hselected : (all.foldl Selection.take ⟨[], [], []⟩).Disjoint all := by
    apply List.foldlRecOn (motive := fun s ↦ Selection.Disjoint s all)
    · exact ⟨.nil, fun a ha ↦ (List.not_mem_nil ha).elim, fun a ha ↦ (List.not_mem_nil ha).elim⟩
    · intro s hs a ha
      exact take_disjoint hs ha fun a ha ↦ (hall a ha).pos
  let selected := (all.foldl Selection.take ⟨[], [], []⟩).selected
  have hmem : ∀ a ∈ selected.mergeSort tupleOrder, IsAnchor studentTokens teacherTokens a := by
    intro a ha
    exact hall a (hselected.subset a (List.mem_mergeSort.mp ha))
  have horder : (selected.mergeSort tupleOrder).Pairwise fun a b ↦ tupleOrder a b = true := by
    apply List.pairwise_mergeSort
    · intro a b c hab hbc
      simp only [tupleOrder, decide_eq_true_eq] at *
      omega
    · intro a b
      simp only [tupleOrder, Bool.or_eq_true, decide_eq_true_eq]
      omega
  have happart : (selected.mergeSort tupleOrder).Pairwise Apart :=
    (List.mergeSort_perm selected tupleOrder).symm.pairwise hselected.apart fun h ↦ apart_symm h
  have hsorted : (selected.mergeSort tupleOrder).Pairwise fun a b ↦ a.1 + a.2.2 ≤ b.1 := by
    apply (List.Pairwise.and horder happart).imp_of_mem
    intro a b ha hb hab
    have hbpos := (hmem b hb).pos
    simp only [tupleOrder, decide_eq_true_eq, Apart] at hab
    omega
  exact anchorsFrom_validate hmem hsorted fun a _ ↦ Nat.zero_le a.1

variable {Score : Type} (scoring : Scoring Score) (maxCombinationLen : ℕ)
  (ignoreLeadingCharDiff : Bool)

theorem aligned_alignSegment (lastI lastJ i j : ℕ) : Aligned lastI lastJ
    (slice studentTokens lastI i) (slice teacherTokens lastJ j)
    (alignSegment scoring maxCombinationLen ignoreLeadingCharDiff studentTokens teacherTokens
      lastI lastJ i j) := by
  rw [alignSegment]
  split
  · exact aligned_shiftPairs (aligned_alignDp _ _ _ _ _) lastI lastJ
  · rename_i hempty
    push Not at hempty
    rw [hempty.1, hempty.2]
    exact .nil _ _

theorem aligned_anchor {i j k : ℕ} (hi : i + k ≤ studentTokens.length)
    (hj : j + k ≤ teacherTokens.length) :
    Aligned i j (slice studentTokens i (i + k)) (slice teacherTokens j (j + k))
      ((List.range k).map fun kk ↦
        { sTokens := [studentTokens.getD (i + kk) ""],
          tTokens := [teacherTokens.getD (j + kk) ""], sStart := (i + kk : ℕ),
          sEnd := (i + kk + 1 : ℕ), tStart := (j + kk : ℕ), tEnd := (j + kk + 1 : ℕ) }) := by
  constructor
  · clear hi hj
    induction k with
    | zero => trivial
    | succ k ih =>
      rw [List.range_succ, List.map_append, follow_append]
      refine ⟨ih, ?_⟩
      have hs : (List.flatMap (·.sTokens) ((List.range k).map fun kk ↦
          (⟨[studentTokens.getD (i + kk) ""], [teacherTokens.getD (j + kk) ""], (i + kk : ℕ),
            (i + kk + 1 : ℕ), (j + kk : ℕ), (j + kk + 1 : ℕ), false⟩ : AlignmentPair))).length =
            k := by
        simp [List.flatMap_map, List.length_flatMap]
      have ht : (List.flatMap (·.tTokens) ((List.range k).map fun kk ↦
          (⟨[studentTokens.getD (i + kk) ""], [teacherTokens.getD (j + kk) ""], (i + kk : ℕ),
            (i + kk + 1 : ℕ), (j + kk : ℕ), (j + kk + 1 : ℕ), false⟩ : AlignmentPair))).length =
            k := by
        simp [List.flatMap_map, List.length_flatMap]
      rw [hs, ht]
      exact ⟨.inr ⟨by simp, rfl, by simp⟩, .inr ⟨by simp, rfl, by simp⟩, trivial⟩
  · rw [slice_eq_map "" hi, Nat.add_sub_cancel_left, List.flatMap_map, List.map_eq_flatMap]
  · rw [slice_eq_map "" hj, Nat.add_sub_cancel_left, List.flatMap_map, List.map_eq_flatMap]

theorem slice_append_slice {tokens : List String} {a b c : ℕ} (hab : a ≤ b) (hbc : b ≤ c) :
    slice tokens a b ++ slice tokens b c = slice tokens a c := by
  have hdrop : tokens.drop b = (tokens.drop a).drop (b - a) := by
    rw [List.drop_drop, Nat.add_sub_cancel' hab]
  have hlen : c - a = (b - a) + (c - b) := by omega
  rw [slice, slice, slice, hdrop, hlen, List.take_add]

theorem aligned_alignAroundAnchors {lastI lastJ : ℕ} {anchors : List (ℕ × ℕ × ℕ)}
    (h : AnchorsFrom studentTokens teacherTokens lastI lastJ anchors)
    (hI : lastI ≤ studentTokens.length) (hJ : lastJ ≤ teacherTokens.length) :
    Aligned lastI lastJ (slice studentTokens lastI studentTokens.length)
      (slice teacherTokens lastJ teacherTokens.length)
      (alignAroundAnchors scoring maxCombinationLen ignoreLeadingCharDiff studentTokens
        teacherTokens lastI lastJ anchors) := by
  induction anchors generalizing lastI lastJ with
  | nil =>
    rw [alignAroundAnchors]
    exact aligned_alignSegment _ _ _ _ _ _ _
  | cons a anchors ih =>
    obtain ⟨i, j, k⟩ := a
    obtain ⟨hi, hj, hik, hjk, -, hrest⟩ := h
    have hsegment : Aligned lastI lastJ (slice studentTokens lastI i)
        (slice teacherTokens lastJ j) _ :=
      aligned_alignSegment scoring maxCombinationLen ignoreLeadingCharDiff lastI lastJ i j
    have hslen : lastI + (slice studentTokens lastI i).length = i := by
      rw [length_slice (by omega)]
      omega
    have htlen : lastJ + (slice teacherTokens lastJ j).length = j := by
      rw [length_slice (by omega)]
      omega
    have hanchor := aligned_anchor hik hjk
    rw [← hslen, ← htlen] at hanchor
    have hhead := hsegment.append hanchor
    rw [hslen, htlen, slice_append_slice hi (Nat.le_add_right i k),
      slice_append_slice hj (Nat.le_add_right j k)] at hhead
    have htail := ih hrest hik hjk
    have hslen' : lastI + (slice studentTokens lastI (i + k)).length = i + k := by
      rw [length_slice hik]
      omega
    have htlen' : lastJ + (slice teacherTokens lastJ (j + k)).length = j + k := by
      rw [length_slice hjk]
      omega
    rw [← hslen', ← htlen'] at htail
    have hwhole := hhead.append htail
    rw [hslen', htlen', slice_append_slice (by omega) hik,
      slice_append_slice (by omega) hjk] at hwhole
    rw [alignAroundAnchors]
    exact hwhole

variable (studentTokens teacherTokens) in
theorem aligned_alignWithAnchors {anchorLengths : List ℕ} (hpos : ∀ k ∈ anchorLengths, 0 < k) :
    Aligned 0 0 studentTokens teacherTokens
      (alignWithAnchors scoring maxCombinationLen ignoreLeadingCharDiff studentTokens
        teacherTokens anchorLengths) := by
  have hslice : ∀ tokens : List String, slice tokens 0 tokens.length = tokens := by
    intro tokens
    rw [slice, List.drop_zero, Nat.sub_zero, List.take_length]
  rw [alignWithAnchors]
  split
  · exact aligned_alignDp _ _ _ _ _
  · have hanchors := aligned_alignAroundAnchors scoring maxCombinationLen ignoreLeadingCharDiff
      (anchorsFrom_findAnchors studentTokens teacherTokens hpos) (Nat.zero_le _) (Nat.zero_le _)
    rwa [hslice, hslice] at hanchors

end Anchors

end NemoRL.XToken.TokenAligner
