import Mathlib
import NemoRL.XToken.AlignmentDp

namespace NemoRL.XToken.TokenAligner

open Foundations.Blocks Foundations.Recurrences

section Texts

def Move.text : Move → List Char
  | .blank => []
  | .diag => "diag".toList
  | .up => "up".toList
  | .left => "left".toList
  | .combS1OverS2 k => "comb_s1_over_s2_".toList ++ Nat.toDigits 10 k
  | .combS2OverS1 k => "comb_s2_over_s1_".toList ++ Nat.toDigits 10 k

def lastNumber (text : List Char) : ℕ :=
  Nat.ofDigitChars 10 (text.reverse.takeWhile (· ≠ '_')).reverse 0

/-- The branches of the traceback on the text of a move. -/
def readMove (text : List Char) : Move :=
  if text = "diag".toList then .diag
  else if text = "up".toList then .up
  else if text = "left".toList then .left
  else if "comb_s1_over_s2_".toList.isPrefixOf text then .combS1OverS2 (lastNumber text)
  else if "comb_s2_over_s1_".toList.isPrefixOf text then .combS2OverS1 (lastNumber text)
  else .blank

theorem lastNumber_append (front : List Char) (k : ℕ) :
    lastNumber (front ++ '_' :: Nat.toDigits 10 k) = k := by
  have hdigits : ∀ c ∈ (Nat.toDigits 10 k).reverse, decide (c ≠ '_') = true := by
    intro c hc
    have hdigit : c.isDigit = true :=
      Nat.isDigit_of_mem_toDigits (by decide) (by decide) (List.mem_reverse.mp hc)
    exact decide_eq_true fun h ↦ absurd (h ▸ hdigit) (by decide)
  rw [lastNumber, List.reverse_append, List.reverse_cons, List.append_assoc,
    List.takeWhile_append_of_pos hdigits]
  simp [Nat.ofDigitChars_ten_toDigits]

/-- A text that begins as those of the combinations do is no other move. -/
theorem readMove_of_head {text : List Char} (h : text.head? = some 'c') : readMove text =
    if "comb_s1_over_s2_".toList.isPrefixOf text then .combS1OverS2 (lastNumber text)
    else if "comb_s2_over_s1_".toList.isPrefixOf text then .combS2OverS1 (lastNumber text)
    else .blank := by
  have hother : ∀ other : List Char, other.head? ≠ some 'c' → text ≠ other :=
    fun other hne heq ↦ hne (heq ▸ h)
  rw [readMove, if_neg (hother _ (by decide)), if_neg (hother _ (by decide)),
    if_neg (hother _ (by decide))]

theorem text_combS1OverS2 (k : ℕ) :
    (Move.combS1OverS2 k).text = "comb_s1_over_s2_".toList ++ Nat.toDigits 10 k := rfl

theorem text_combS2OverS1 (k : ℕ) :
    (Move.combS2OverS1 k).text = "comb_s2_over_s1_".toList ++ Nat.toDigits 10 k := rfl

theorem readMove_text (move : Move) : readMove move.text = move := by
  cases move with
  | blank | diag | up | left => decide
  | combS1OverS2 k =>
    have hname : "comb_s1_over_s2_".toList = "comb_s1_over_s2".toList ++ ['_'] := by decide
    have hprefix := List.prefix_append "comb_s1_over_s2_".toList (Nat.toDigits 10 k)
    have hnumber : lastNumber ("comb_s1_over_s2_".toList ++ Nat.toDigits 10 k) = k := by
      rw [hname, List.append_assoc, List.singleton_append, lastNumber_append]
    rw [text_combS1OverS2, readMove_of_head (by simp),
      if_pos (List.isPrefixOf_iff_prefix.mpr hprefix), hnumber]
  | combS2OverS1 k =>
    have hname : "comb_s2_over_s1_".toList = "comb_s2_over_s1".toList ++ ['_'] := by decide
    have hprefix := List.prefix_append "comb_s2_over_s1_".toList (Nat.toDigits 10 k)
    have hother : ¬ "comb_s1_over_s2_".toList.isPrefixOf
        ("comb_s2_over_s1_".toList ++ Nat.toDigits 10 k) = true := by
      rw [List.isPrefixOf_iff_prefix]
      simp [List.cons_prefix_cons]
    have hnumber : lastNumber ("comb_s2_over_s1_".toList ++ Nat.toDigits 10 k) = k := by
      rw [hname, List.append_assoc, List.singleton_append, lastNumber_append]
    rw [text_combS2OverS1, readMove_of_head (by simp), if_neg hother,
      if_pos (List.isPrefixOf_iff_prefix.mpr hprefix), hnumber]

end Texts

section Result

variable {Score : Type} (scoring : Scoring Score) (maxCombinationLen : ℕ)
  (ignoreLeadingCharDiff : Bool) (studentTokens teacherTokens : List String)

/-- What `_align_dp` returns, the moves of the trace kept as text. -/
def alignDpScored : List AlignmentPair × Score :=
  let table := dpTable scoring maxCombinationLen ignoreLeadingCharDiff studentTokens teacherTokens
  let trace := fun i j ↦ (cellAt scoring (table.getD i []) j).move.text
  (traceback studentTokens teacherTokens (fun i j ↦ readMove (trace i j))
      (studentTokens.length + teacherTokens.length) studentTokens.length teacherTokens.length [],
    (cellAt scoring (table.getD studentTokens.length []) teacherTokens.length).score)

theorem alignDpScored_fst :
    (alignDpScored scoring maxCombinationLen ignoreLeadingCharDiff studentTokens teacherTokens).1 =
      alignDp scoring maxCombinationLen ignoreLeadingCharDiff studentTokens teacherTokens := by
  simp only [alignDpScored, readMove_text]
  rfl

end Result

section Table

variable {Score : Type} (scoring : Scoring Score) (maxCombinationLen : ℕ)
  (ignoreLeadingCharDiff : Bool) (studentTokens teacherTokens : List String)

def tableCell (i j : ℕ) : Cell Score :=
  cellAt scoring ((dpTable scoring maxCombinationLen ignoreLeadingCharDiff studentTokens
    teacherTokens).getD i []) j

/-- The rows of the table, the first `i` of which are below row `i`. -/
def rowsBelow (i : ℕ) : List (List (Cell Score)) :=
  grow (fun rows i ↦ nextRow scoring maxCombinationLen ignoreLeadingCharDiff studentTokens
    teacherTokens rows (i + 1)) (firstRow scoring teacherTokens) i

theorem row_zero : (dpTable scoring maxCombinationLen ignoreLeadingCharDiff studentTokens
    teacherTokens).getD 0 [] = firstRow scoring teacherTokens := by
  rw [List.getD_eq_getElem?_getD]
  exact congrArg (Option.getD · []) (getElem?_grow_zero studentTokens.length)

theorem row_succ {i : ℕ} (hi : i < studentTokens.length) :
    (dpTable scoring maxCombinationLen ignoreLeadingCharDiff studentTokens
      teacherTokens).getD (i + 1) [] = nextRow scoring maxCombinationLen ignoreLeadingCharDiff
        studentTokens teacherTokens (rowsBelow scoring maxCombinationLen ignoreLeadingCharDiff
          studentTokens teacherTokens i) (i + 1) := by
  rw [List.getD_eq_getElem?_getD]
  exact congrArg (Option.getD · []) (getElem?_grow_succ hi)

theorem rowsBelow_getD {i i' : ℕ} (hi : i ≤ studentTokens.length) (hi' : i' ≤ i) :
    (rowsBelow scoring maxCombinationLen ignoreLeadingCharDiff studentTokens teacherTokens
      i).getD i' [] = (dpTable scoring maxCombinationLen ignoreLeadingCharDiff studentTokens
        teacherTokens).getD i' [] := getD_grow_of_le hi hi'

theorem tableCell_zero : tableCell scoring maxCombinationLen ignoreLeadingCharDiff studentTokens
    teacherTokens 0 0 = ⟨scoring.zero, .blank⟩ := by
  rw [tableCell, row_zero, cellAt, List.getD_eq_getElem?_getD]
  exact congrArg (Option.getD · _) (getElem?_grow_zero teacherTokens.length)

theorem tableCell_left {j : ℕ} (hj : j < teacherTokens.length) :
    tableCell scoring maxCombinationLen ignoreLeadingCharDiff studentTokens teacherTokens 0 (j + 1) =
      ⟨scoring.add (tableCell scoring maxCombinationLen ignoreLeadingCharDiff studentTokens
        teacherTokens 0 j).score scoring.gapPenalty, .left⟩ := by
  have hcell := congrArg (Option.getD · ⟨scoring.zero, .blank⟩)
    (getElem?_grow_succ (f := fun row j ↦
      (⟨scoring.add (cellAt scoring row j).score scoring.gapPenalty, .left⟩ : Cell Score))
      (c := ⟨scoring.zero, .blank⟩) hj)
  have hbefore := getD_grow_of_le (f := fun row j ↦
      (⟨scoring.add (cellAt scoring row j).score scoring.gapPenalty, .left⟩ : Cell Score))
      (c := ⟨scoring.zero, .blank⟩) (d := ⟨scoring.zero, .blank⟩) hj.le le_rfl
  rw [tableCell, tableCell, row_zero, cellAt, cellAt, List.getD_eq_getElem?_getD]
  refine hcell.trans ?_
  rw [Option.getD_some, cellAt, hbefore]
  rfl

theorem tableCell_up {i : ℕ} (hi : i < studentTokens.length) :
    tableCell scoring maxCombinationLen ignoreLeadingCharDiff studentTokens teacherTokens (i + 1) 0 =
      ⟨scoring.add (tableCell scoring maxCombinationLen ignoreLeadingCharDiff studentTokens
        teacherTokens i 0).score scoring.gapPenalty, .up⟩ := by
  rw [tableCell, row_succ scoring maxCombinationLen ignoreLeadingCharDiff _ _ hi, cellAt,
    List.getD_eq_getElem?_getD]
  refine (congrArg (Option.getD · _) (getElem?_grow_zero teacherTokens.length)).trans ?_
  rw [Option.getD_some, Nat.add_sub_cancel,
    rowsBelow_getD scoring maxCombinationLen ignoreLeadingCharDiff _ _ hi.le le_rfl]
  rfl

/-- Row `i + 1`, the first `j` inner cells of which are before cell `j`. -/
def rowBefore (i j : ℕ) : List (Cell Score) :=
  let rows := rowsBelow scoring maxCombinationLen ignoreLeadingCharDiff studentTokens teacherTokens i
  grow (fun row j ↦ bestCell scoring maxCombinationLen ignoreLeadingCharDiff studentTokens
    teacherTokens rows row (i + 1) (j + 1))
    ⟨scoring.add (cellAt scoring (rows.getD i []) 0).score scoring.gapPenalty, .up⟩ j

theorem tableCell_inner {i j : ℕ} (hi : i < studentTokens.length) (hj : j < teacherTokens.length) :
    ∃ rows row, tableCell scoring maxCombinationLen ignoreLeadingCharDiff studentTokens
        teacherTokens (i + 1) (j + 1) = bestCell scoring maxCombinationLen ignoreLeadingCharDiff
          studentTokens teacherTokens rows row (i + 1) (j + 1) ∧
      (∀ i' ≤ i, ∀ j', cellAt scoring (rows.getD i' []) j' = tableCell scoring maxCombinationLen
        ignoreLeadingCharDiff studentTokens teacherTokens i' j') ∧
      cellAt scoring row j = tableCell scoring maxCombinationLen ignoreLeadingCharDiff
        studentTokens teacherTokens (i + 1) j := by
  refine ⟨rowsBelow scoring maxCombinationLen ignoreLeadingCharDiff studentTokens teacherTokens i,
    rowBefore scoring maxCombinationLen ignoreLeadingCharDiff studentTokens teacherTokens i j,
    ?_, ?_, ?_⟩
  · rw [tableCell, row_succ scoring maxCombinationLen ignoreLeadingCharDiff _ _ hi, cellAt,
      List.getD_eq_getElem?_getD]
    exact congrArg (Option.getD · _) (getElem?_grow_succ hj)
  · intro i' hi' j'
    rw [tableCell, rowsBelow_getD scoring maxCombinationLen ignoreLeadingCharDiff _ _ hi.le hi']
  · rw [tableCell, row_succ scoring maxCombinationLen ignoreLeadingCharDiff _ _ hi]
    exact getD_grow_of_le hj.le le_rfl

end Table

end NemoRL.XToken.TokenAligner
