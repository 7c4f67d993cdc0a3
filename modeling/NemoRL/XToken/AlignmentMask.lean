import Mathlib
import NemoRL.XToken.CanonicalForm

namespace NemoRL.XToken.TokenAligner

open Foundations.Blocks

section Moves

variable {Score : Type} (scoring : Scoring Score) (maxCombinationLen : ℕ)
  (ignoreLeadingCharDiff : Bool) (studentTokens teacherTokens : List String)

def tracebackMoves (trace : ℕ → ℕ → Move) :
    ℕ → ℕ → ℕ → List (Move × AlignmentPair) → List (Move × AlignmentPair)
  | 0, _, _, aligned => aligned
  | fuel + 1, i, j, aligned =>
    if i > 0 ∨ j > 0 then
      let move := trace i j
      if move = .blank then aligned
      else tracebackMoves trace fuel (i - move.size.1) (j - move.size.2)
        ((move, spanPair studentTokens teacherTokens i j move.size.1 move.size.2) :: aligned)
    else aligned

def alignDpMoves : List (Move × AlignmentPair) :=
  let table := dpTable scoring maxCombinationLen ignoreLeadingCharDiff studentTokens teacherTokens
  tracebackMoves studentTokens teacherTokens
    (fun i j ↦ (cellAt scoring (table.getD i []) j).move)
    (studentTokens.length + teacherTokens.length) studentTokens.length teacherTokens.length []

variable {studentTokens teacherTokens} in
theorem mem_tracebackMoves {trace : ℕ → ℕ → Move} {fuel i j : ℕ}
    {aligned : List (Move × AlignmentPair)} {x : Move × AlignmentPair}
    (hi : i ≤ studentTokens.length) (hj : j ≤ teacherTokens.length)
    (h : x ∈ tracebackMoves studentTokens teacherTokens trace fuel i j aligned) :
    x ∈ aligned ∨ ∃ i ≤ studentTokens.length, ∃ j ≤ teacherTokens.length, x = (trace i j,
      spanPair studentTokens teacherTokens i j (trace i j).size.1 (trace i j).size.2) := by
  induction fuel generalizing i j aligned with
  | zero => exact .inl h
  | succ fuel ih =>
    rw [tracebackMoves] at h
    dsimp only at h
    split_ifs at h with hpos hblank
    · exact .inl h
    · rcases ih (by omega) (by omega) h with hmem | hcell
      · rcases List.mem_cons.mp hmem with rfl | hmem
        · exact .inr ⟨i, hi, j, hj, rfl⟩
        · exact .inl hmem
      · exact .inr hcell
    · exact .inl h

end Moves

section Texts

inductive ByMatch : Move → AlignmentPair → Prop
  | exact {p : AlignmentPair} (h : p.sTokens = p.tTokens) : ByMatch .diag p
  | s1OverS2 (k : ℕ) (p : AlignmentPair) : ByMatch (.combS1OverS2 k) p
  | s2OverS1 (k : ℕ) (p : AlignmentPair) : ByMatch (.combS2OverS1 k) p

variable {Score : Type} {scoring : Scoring Score} {maxCombinationLen : ℕ}
  {studentTokens teacherTokens : List String}

def Move.SameText (studentTokens teacherTokens : List String) (i j : ℕ) (move : Move) : Prop :=
  (∃ k, move = .combS1OverS2 k) ∨ (∃ k, move = .combS2OverS1 k) →
    String.join (slice studentTokens (i - move.size.1) i) =
      String.join (slice teacherTokens (j - move.size.2) j)

theorem join_slice_last {tokens : List String} {i : ℕ} (h0 : 0 < i) (hi : i ≤ tokens.length) :
    String.join (slice tokens (i - 1) i) = tokens.getD (i - 1) "" := by
  have hsize : i - (i - 1) = 1 := by omega
  rw [slice_eq_map "" hi, hsize, List.range_one, List.map_singleton, String.join_cons,
    String.join_nil, String.append_empty, Nat.add_zero]

theorem dpTable_sameText {i j : ℕ} (hi : i ≤ studentTokens.length)
    (hj : j ≤ teacherTokens.length) :
    (cellAt scoring ((dpTable scoring maxCombinationLen false studentTokens
      teacherTokens).getD i []) j).move.SameText studentTokens teacherTokens i j := by
  have hsimple : ∀ i j move, (∀ k, move ≠ .combS1OverS2 k) → (∀ k, move ≠ .combS2OverS1 k) →
      Move.SameText studentTokens teacherTokens i j move := by
    rintro i j move h1 h2 (⟨k, hk⟩ | ⟨k, hk⟩)
    · exact absurd hk (h1 k)
    · exact absurd hk (h2 k)
  refine dpTable_move (P := fun i j move ↦ i ≤ studentTokens.length →
    j ≤ teacherTokens.length → move.SameText studentTokens teacherTokens i j)
      _ _ _ _ _ ?_ ?_ ?_ ?_ hi hj hi hj
  · exact fun _ _ ↦ hsimple _ _ _ (by simp) (by simp)
  · exact fun _ _ _ ↦ hsimple _ _ _ (by simp) (by simp)
  · exact fun _ _ _ ↦ hsimple _ _ _ (by simp) (by simp)
  · intro rows row i j
    apply bestCell_move (P := fun move ↦ i + 1 ≤ studentTokens.length →
      j + 1 ≤ teacherTokens.length → move.SameText studentTokens teacherTokens (i + 1) (j + 1))
    · exact fun _ _ ↦ hsimple _ _ _ (by simp) (by simp)
    · exact fun _ _ ↦ hsimple _ _ _ (by simp) (by simp)
    · exact fun _ _ ↦ hsimple _ _ _ (by simp) (by simp)
    · intro k _ _ htext hi _ _
      exact (join_slice_last (Nat.succ_pos i) hi).trans (eq_of_beq htext)
    · intro k _ _ htext _ hj _
      exact ((join_slice_last (Nat.succ_pos j) hj).trans (eq_of_beq htext)).symm

theorem join_eq_of_byMatch {x : Move × AlignmentPair}
    (hx : x ∈ alignDpMoves scoring maxCombinationLen false studentTokens teacherTokens)
    (h : ByMatch x.1 x.2) : String.join x.2.sTokens = String.join x.2.tTokens := by
  rcases mem_tracebackMoves le_rfl le_rfl hx with hnil | ⟨i, hi, j, hj, hcell⟩
  · cases hnil
  · have htext := @dpTable_sameText Score scoring maxCombinationLen _ _ i j hi hj
    obtain ⟨move, p⟩ := x
    obtain ⟨hmove, rfl⟩ := Prod.mk.inj hcell
    rw [← hmove] at htext h ⊢
    cases h with
    | exact h => exact congrArg String.join h
    | s1OverS2 k => exact htext (.inl ⟨k, rfl⟩)
    | s2OverS1 k => exact htext (.inr ⟨k, rfl⟩)

theorem mem_of_alignDpMoves {x : Move × AlignmentPair}
    (hx : x ∈ alignDpMoves scoring maxCombinationLen false studentTokens teacherTokens) :
    (∀ token ∈ x.2.sTokens, token ∈ studentTokens) ∧
      ∀ token ∈ x.2.tTokens, token ∈ teacherTokens := by
  rcases mem_tracebackMoves le_rfl le_rfl hx with hnil | ⟨i, hi, j, hj, rfl⟩
  · cases hnil
  · exact ⟨fun token h ↦ List.mem_of_mem_drop (List.mem_of_mem_take h),
      fun token h ↦ List.mem_of_mem_drop (List.mem_of_mem_take h)⟩

theorem canonicalText_of_fixed {tokens : List String}
    (h : ∀ token ∈ tokens, canonicalToken token = token) :
    canonicalText tokens = String.join tokens := by
  rw [canonicalText, List.map_congr_left h, List.map_id']

end Texts

section Merged

theorem settled_spaced {c : Char} (h : 127 < c.toNat) (hmark : c ≠ 'Ċ') (hfix : c ≠ 'Ã') :
    Settled (String.ofList ['Ġ', c]) := by
  have hchars : (String.ofList ['Ġ', c]).toList = ['Ġ', c] := String.toList_ofList
  refine ⟨⟨?_, ?_, ?_, ?_, ?_⟩, ?_, ?_⟩
  · intro x hx hpre
    rw [hchars] at hpre
    obtain rfl := (List.cons_prefix_cons.mp hpre).1
    exact absurd hx (by decide)
  · intro hin
    have hmem := hin.subset (List.mem_singleton_self 'Ċ')
    rw [hchars] at hmem
    rcases List.mem_cons.mp hmem with heq | hmem
    · exact absurd heq (by decide)
    · exact hmark (List.mem_singleton.mp hmem).symm
  · intro hin
    rw [hchars] at hin
    have heq := hin.eq_of_length rfl
    exact absurd (List.cons.inj heq).1 (by decide)
  · intro hmem
    have hwhole : (["ĉ", "Ġ\n", "Ġ,", "Ġ.", "Ġ;", "Ġ:"].all fun t ↦
        t.toList.tail.all fun x ↦ x.toNat ≤ 127) = true := by decide
    simp only [List.all_eq_true, decide_eq_true_eq] at hwhole
    refine absurd (hwhole _ hmem c ?_) (not_le.mpr h)
    rw [hchars]
    exact List.mem_singleton_self c
  · exact byteFallback_of_length (by rw [hchars]; exact (by decide : 2 ≠ 6))
  · intro rule hrule hin
    rw [hchars] at hin
    rcases List.infix_cons_iff.mp hin with hpre | hin
    · obtain ⟨a, rest, heq⟩ := List.exists_cons_of_ne_nil (fixRules_settling.ne_nil rule hrule).1
      rw [heq] at hpre
      obtain rfl := (List.cons_prefix_cons.mp hpre).1
      exact (fixRules_patterns hrule).1 'Ġ' (heq ▸ List.mem_cons_self ..) (by decide)
    · exact not_fix_infix_singleton hfix rule hrule hin
  · by_contra hspecial
    have hlen := length_of_special hspecial
    rw [hchars, List.length_cons, List.length_singleton] at hlen
    exact absurd hlen (by decide)

theorem decodeByteTokens_cases {buffer : List String} {decoded : String}
    (h : decodeByteTokens buffer = some decoded) : ∃ c : Char, 127 < c.toNat ∧
      (decoded = String.singleton c ∨ decoded = String.ofList ['Ġ', c]) := by
  unfold decodeByteTokens at h
  dsimp only at h
  split at h
  · split at h
    · cases h
    · obtain ⟨text, htext, h⟩ := Option.bind_eq_some_iff.mp h
      split at h
      · rename_i c hchars
        split at h
        · rename_i hhigh
          refine ⟨c, hhigh, ?_⟩
          obtain rfl := Option.some.inj h
          split
          · exact .inr rfl
          · refine .inl (String.toList_inj.mp ?_)
            rw [hchars, String.toList_singleton]
        · cases h
      · cases h
  · cases h

theorem mem_mergeConsecutiveBytes {P : String → Prop} {buffer tokens : List (String × (ℕ × ℕ))}
    (hbuffer : ∀ x ∈ buffer, P x.1) (htokens : ∀ x ∈ tokens, P x.1)
    (hdecoded : ∀ tokens decoded, decodeByteTokens tokens = some decoded → P decoded) :
    ∀ x ∈ mergeConsecutiveBytes buffer tokens, P x.1 := by
  have hmerge : ∀ buffer : List (String × (ℕ × ℕ)), (∀ x ∈ buffer, P x.1) →
      ∀ x ∈ tryMergeByteBuffer buffer, P x.1 := by
    intro buffer hbuffer x hx
    unfold tryMergeByteBuffer at hx
    split at hx
    · cases hx
    · split at hx
      · exact hbuffer x hx
      · split at hx
        · rename_i decoded hdecode
          rw [List.mem_singleton.mp hx]
          exact hdecoded _ decoded hdecode
        · exact hbuffer x hx
  induction tokens generalizing buffer with
  | nil => exact hmerge buffer hbuffer
  | cons entry tokens ih =>
    obtain ⟨htoken, htokens⟩ := List.forall_mem_cons.mp htokens
    rw [mergeConsecutiveBytes]
    split
    · refine ih ?_ htokens
      rw [List.forall_mem_append]
      exact ⟨hbuffer, List.forall_mem_singleton.mpr htoken⟩
    · rw [List.forall_mem_append, List.forall_mem_cons]
      exact ⟨hmerge buffer hbuffer, htoken, ih (by simp) htokens⟩

theorem mem_mergeEncodingArtifacts {i skip : ℕ} {seq : List String} {x : String × (ℕ × ℕ)}
    (h : x ∈ mergeEncodingArtifacts i skip seq) :
    x.1 ∈ seq ∨ ∃ fix ∈ multiTokenArtifactFixes, x.1 = fix.2.headD "" := by
  induction seq generalizing i skip with
  | nil =>
    rw [mergeEncodingArtifacts] at h
    cases h
  | cons token seq ih =>
    have hrest : ∀ i skip, x ∈ mergeEncodingArtifacts i skip seq →
        x.1 ∈ token :: seq ∨ ∃ fix ∈ multiTokenArtifactFixes, x.1 = fix.2.headD "" :=
      fun i skip h ↦ (ih h).imp_left (List.mem_cons_of_mem _)
    cases skip with
    | succ skip => exact hrest _ _ h
    | zero =>
      rw [mergeEncodingArtifacts] at h
      split at h
      · rename_i pattern replacement hfind
        rcases List.mem_cons.mp h with rfl | h
        · exact .inr ⟨_, List.mem_of_find?_eq_some hfind, rfl⟩
        · exact hrest _ _ h
      · rcases List.mem_cons.mp h with rfl | h
        · exact .inl (List.mem_cons_self ..)
        · exact hrest _ _ h

end Merged

section Agreement

/-- A sequence that canonicalizes to tokens that stay: none of its tokens is unsettled, and no
bytes are merged into a mark. -/
def Steady (seq : List String) : Prop :=
  (∀ token ∈ seq, ¬ Unsettled token) ∧
    ∀ token ∈ (canonicalizeSequence seq).1, token ∉ ["▁", "Ċ", "ĉ", "Ã", "ĠĊ", "ĠÃ"]

theorem canonicalToken_of_char {c : Char} {token : String} (hhigh : 127 < c.toNat)
    (htoken : token = String.singleton c ∨ token = String.ofList ['Ġ', c])
    (hmarks : token ∉ ["▁", "Ċ", "ĉ", "Ã", "ĠĊ", "ĠÃ"]) : canonicalToken token = token := by
  rcases htoken with rfl | rfl
  · refine canonicalToken_of_settled (settled_singleton fun hmem ↦ ?_)
    rcases List.mem_append.mp
      (show c ∈ [' ', '_'] ++ ['▁', 'Ċ', 'ĉ', 'Ã'] from hmem) with hspace | hmark
    · have hlow : ∀ c ∈ [' ', '_'], c.toNat ≤ 127 := by simp
      exact absurd (hlow c hspace) (not_le.mpr hhigh)
    · have hmark' : ∀ c ∈ ['▁', 'Ċ', 'ĉ', 'Ã'],
          String.singleton c ∈ ["▁", "Ċ", "ĉ", "Ã", "ĠĊ", "ĠÃ"] := by simp
      exact hmarks (hmark' c hmark)
  · refine canonicalToken_of_settled (settled_spaced hhigh ?_ ?_)
    · rintro rfl
      exact hmarks (by decide)
    · rintro rfl
      exact hmarks (by decide)

theorem canonicalToken_artifact {fix : List String × List String}
    (hfix : fix ∈ multiTokenArtifactFixes) :
    canonicalToken (fix.2.headD "") = fix.2.headD "" := by
  have htable : (multiTokenArtifactFixes.all fun fix ↦
      fix.2.headD "" ∉ ["▁", "Ċ", "ĉ", "Ã", "ĠĊ", "ĠÃ"] && (fix.2.headD "").toList.any fun c ↦
        127 < c.toNat && (fix.2.headD "" = String.singleton c ||
          fix.2.headD "" = String.ofList ['Ġ', c])) = true := by decide +kernel
  simp only [List.all_eq_true, List.any_eq_true, Bool.and_eq_true, Bool.or_eq_true,
    decide_eq_true_eq] at htable
  obtain ⟨hmarks, c, -, hhigh, htoken⟩ := htable fix hfix
  exact canonicalToken_of_char hhigh htoken hmarks

theorem Steady.fixed {seq : List String} (h : Steady seq) :
    ∀ token ∈ (canonicalizeSequence seq).1, canonicalToken token = token := by
  have hmerged : ∀ x ∈ mergeConsecutiveBytes [] ((mergeEncodingArtifacts 0 0 seq).map fun x ↦
      (canonicalToken x.1, x.2)), x.1 ∉ ["▁", "Ċ", "ĉ", "Ã", "ĠĊ", "ĠÃ"] →
        canonicalToken x.1 = x.1 := by
    refine mem_mergeConsecutiveBytes (P := fun token ↦
      token ∉ ["▁", "Ċ", "ĉ", "Ã", "ĠĊ", "ĠÃ"] → canonicalToken token = token)
      (by simp) ?_ ?_
    · intro x hx _
      obtain ⟨y, hy, rfl⟩ := List.mem_map.mp hx
      rcases mem_mergeEncodingArtifacts hy with hmem | ⟨fix, hfix, heq⟩
      · exact canonicalToken_canonicalToken (h.1 _ hmem)
      · have hfixed := canonicalToken_artifact hfix
        rw [← heq] at hfixed
        dsimp only
        rw [hfixed, hfixed]
    · intro buffer decoded hdecode hmarks
      obtain ⟨c, hhigh, htoken⟩ := decodeByteTokens_cases hdecode
      exact canonicalToken_of_char hhigh htoken hmarks
  intro token htoken
  have hkeep := h.2 token htoken
  rw [canonicalizeSequence, List.unzip_fst] at htoken
  obtain ⟨x, hx, rfl⟩ := List.mem_map.mp htoken
  exact hmerged x hx hkeep

/-- Canonicalization is idempotent exactly on the tokens that are not unsettled; a pair that the
alignment of two canonicalized sequences makes by an exact match is marked correct, and one that
it makes by a combination is when the sequences are steady. -/
theorem alignmentMask_agrees {Score : Type} (scoring : Scoring Score) (maxCombinationLen : ℕ)
    (studentTokens teacherTokens : List String) (token : String) :
    (canonicalToken (canonicalToken token) = canonicalToken token ↔ ¬ Unsettled token) ∧
    ∀ x ∈ alignDpMoves scoring maxCombinationLen false (canonicalizeSequence studentTokens).1
      (canonicalizeSequence teacherTokens).1, ByMatch x.1 x.2 →
      x.1 = .diag ∨ Steady studentTokens ∧ Steady teacherTokens → x.2.isMatch = true := by
  refine ⟨canonicalToken_canonicalToken_iff token, ?_⟩
  intro x hx hmatch hwhen
  have htext := join_eq_of_byMatch hx hmatch
  rw [AlignmentPair.isMatch, stringsEqualFlexible, if_neg Bool.false_ne_true, beq_iff_eq]
  rcases hwhen with hdiag | ⟨hstudent, hteacher⟩
  · rw [hdiag] at hmatch
    cases hmatch with
    | exact h => rw [h]
  · obtain ⟨hs, ht⟩ := mem_of_alignDpMoves hx
    rw [canonicalText_of_fixed fun token htoken ↦ hstudent.fixed token (hs token htoken),
      canonicalText_of_fixed fun token htoken ↦ hteacher.fixed token (ht token htoken), htext]

/-- One student token over two teacher tokens. -/
theorem alignmentMask_agrees_combination :
    AlignmentPair.isMatch
      { sTokens := ["ab"], tTokens := ["a", "b"],
        sStart := 0, sEnd := 1, tStart := 0, tEnd := 2 } = true := by
  have hruns : (Move.combS1OverS2 2,
        ({ sTokens := ["ab"], tTokens := ["a", "b"],
           sStart := 0, sEnd := 1, tStart := 0, tEnd := 2 } : AlignmentPair)) ∈
        alignDpMoves defaultScoring 4 false (canonicalizeSequence ["ab"]).1
          (canonicalizeSequence ["a", "b"]).1 ∧
      (∀ token ∈ ["ab", "a", "b"], canonicalToken (canonicalToken token) = canonicalToken token) ∧
      (∀ token ∈ (canonicalizeSequence ["ab"]).1, token ∉ ["▁", "Ċ", "ĉ", "Ã", "ĠĊ", "ĠÃ"]) ∧
      ∀ token ∈ (canonicalizeSequence ["a", "b"]).1,
        token ∉ ["▁", "Ċ", "ĉ", "Ã", "ĠĊ", "ĠÃ"] := by decide +kernel
  obtain ⟨hpair, hidem, hstudent, hteacher⟩ := hruns
  have hagrees := alignmentMask_agrees defaultScoring 4 ["ab"] ["a", "b"]
  refine (hagrees "ab").2 (.combS1OverS2 2, _) hpair (.s1OverS2 2 _)
    (.inr ⟨⟨?_, hstudent⟩, ⟨?_, hteacher⟩⟩)
  · intro token htoken
    exact (hagrees token).1.mp (hidem token (List.mem_append_left ["a", "b"] htoken))
  · intro token htoken
    exact (hagrees token).1.mp (hidem token (List.mem_append_right ["ab"] htoken))

/-- A space before a newline mark is rewritten twice, and a byte that is a space is a combination
that the mask denies. -/
theorem spaceNewline_rewritten :
    canonicalToken "ĠĊ" = "Ġ\n" ∧ canonicalToken (canonicalToken "ĠĊ") = "\n" ∧
    canonicalToken "<0x20>" = " " ∧ canonicalToken (canonicalToken "<0x20>") = "Ġ" ∧
    ∃ x ∈ alignDpMoves defaultScoring 4 false (canonicalizeSequence ["a_"]).1
      (canonicalizeSequence ["a", "<0x5F>"]).1, ByMatch x.1 x.2 ∧ x.2.isMatch = false := by
  have hruns : canonicalToken "ĠĊ" = "Ġ\n" ∧ canonicalToken (canonicalToken "ĠĊ") = "\n" ∧
      canonicalToken "<0x20>" = " " ∧ canonicalToken (canonicalToken "<0x20>") = "Ġ" ∧
      ∀ p ∈ [({ sTokens := ["a_"], tTokens := ["a", "_"],
                sStart := 0, sEnd := 1, tStart := 0, tEnd := 2 } : AlignmentPair)],
        (Move.combS1OverS2 2, p) ∈ alignDpMoves defaultScoring 4 false
          (canonicalizeSequence ["a_"]).1 (canonicalizeSequence ["a", "<0x5F>"]).1 ∧
            p.isMatch = false := by decide +kernel
  obtain ⟨hmark, hmark', hspace, hspace', hpair⟩ := hruns
  obtain ⟨hpair, hmatch⟩ := hpair _ (List.mem_singleton_self _)
  exact ⟨hmark, hmark', hspace, hspace', _, hpair, .s1OverS2 2 _, hmatch⟩

end Agreement

end NemoRL.XToken.TokenAligner
