import Mathlib
import NemoRL.Foundations.Rewriting
import NemoRL.XToken.AlignmentDp

namespace NemoRL.XToken.TokenAligner

open Foundations.Rewriting

section Stages

/-! The steps of `canonical_token`, each on the token the last one left. -/

def normalizeSpace (token : String) : String :=
  if startsWith token " " ∨ startsWith token "_" ∨ startsWith token "▁" then
    String.ofList ('Ġ' :: token.toList.tail)
  else token

def normalizeNewline (token : String) : String :=
  if token = "Ċ" then "\n"
  else if token = "\\n" then "\n"
  else if token = "ĉ" then "\n"
  else if token = "Ġ\n" then "\n"
  else if pyContains token "Ċ" then pyReplace token "Ċ" "\n"
  else if pyContains token "\\n" then pyReplace token "\\n" "\n"
  else token

def normalizePunctuation (token : String) : String :=
  if token = "Ġ," then ","
  else if token = "Ġ." then "."
  else if token = "Ġ;" then ";"
  else if token = "Ġ:" then ":"
  else token

def fixUnicode (token : String) : String :=
  unicodeFixes.foldl (fun token fix ↦
    if pyContains token fix.1 then pyReplace token fix.1 fix.2 else token) token

/-- The byte fallback, or the table of fixes and the special tokens. -/
def finish (token : String) : String :=
  match byteFallback token with
  | some c => c
  | none => (specialTokenMap.lookup (fixUnicode token)).getD (fixUnicode token)

theorem finish_of_some {token c : String} (h : byteFallback token = some c) :
    finish token = c := by
  rw [finish, h]

theorem finish_of_none {token : String} (h : byteFallback token = none) :
    finish token = (specialTokenMap.lookup (fixUnicode token)).getD (fixUnicode token) := by
  rw [finish, h]

theorem canonicalToken_eq {token : String} (h : token ≠ "") : canonicalToken token =
    finish (normalizePunctuation (normalizeNewline (normalizeSpace token))) := by
  unfold canonicalToken
  rw [if_neg h]
  rfl

end Stages

section Strings

theorem pyContains_iff {token broken : String} :
    pyContains token broken = true ↔ broken.toList <:+: token.toList := by
  rw [pyContains, List.any_eq_true, List.infix_iff_prefix_suffix]
  simp only [List.mem_tails, List.isPrefixOf_iff_prefix]
  exact exists_congr fun t ↦ and_comm

theorem startsWith_iff {token start : String} :
    startsWith token start = true ↔ start.toList <+: token.toList :=
  List.isPrefixOf_iff_prefix

theorem substituted_replaceChars {p r : List Char} (hp : p ≠ []) (skip : ℕ) (l : List Char) :
    Substituted p r (l.drop skip) (replaceChars p r skip l) := by
  induction l generalizing skip with
  | nil =>
    rw [List.drop_nil, replaceChars]
    exact .nil
  | cons c l ih =>
    cases skip with
    | succ skip => exact ih skip
    | zero =>
      rw [replaceChars, List.drop_zero]
      split
      · rename_i hpre
        obtain ⟨rest, hrest⟩ := List.isPrefixOf_iff_prefix.mp hpre
        obtain ⟨a, p, rfl⟩ := List.exists_cons_of_ne_nil hp
        obtain ⟨rfl, rfl⟩ := List.cons.inj hrest
        have hdrop : (p.append rest).drop ((a :: p).length - 1) = rest := List.drop_left
        have hswap := ih ((a :: p).length - 1)
        rw [hdrop] at hswap
        exact hswap.swap
      · rename_i hpre
        exact .keep (fun h ↦ hpre (List.isPrefixOf_iff_prefix.mpr h)) (ih 0)

theorem substituted_pyReplace {token broken fixed : String} (h : broken.toList ≠ []) :
    Substituted broken.toList fixed.toList token.toList (pyReplace token broken fixed).toList := by
  rw [pyReplace, String.toList_ofList]
  exact substituted_replaceChars h 0 _

def fixRules : List (List Char × List Char) :=
  unicodeFixes.map fun fix ↦ (fix.1.toList, fix.2.toList)

theorem rewritten_foldl {fixes : List (String × String)}
    (h : ∀ fix ∈ fixes, fix.1.toList ≠ []) (token : String) :
    Rewritten (fixes.map fun fix ↦ (fix.1.toList, fix.2.toList)) token.toList
      (fixes.foldl (fun token fix ↦
        if pyContains token fix.1 then pyReplace token fix.1 fix.2 else token) token).toList := by
  induction fixes generalizing token with
  | nil => exact .nil _
  | cons fix fixes ih =>
    rw [List.map_cons, List.foldl_cons]
    refine .cons ?_ (ih (fun x hx ↦ h x (List.mem_cons_of_mem _ hx)) _)
    split
    · exact substituted_pyReplace (h fix (List.mem_cons_self ..))
    · rename_i hnot
      exact .of_not_occurs fun hin ↦ hnot (pyContains_iff.mpr hin)

end Strings

section Table

def isHexMark (c : Char) : Bool := c ∈ ['+', '-'] || isBlank c || (hexDigit c).isSome

/-- The marks that the other steps look for: spaces, newlines, punctuation and the frame of a
byte fallback. -/
def marks : List Char :=
  [' ', '_', '▁', 'Ċ', '\\', 'n', 'ĉ', 'Ġ', '\n', ',', '.', ';', ':', '<', '0', 'x', '>']

def isMark (c : Char) : Bool := c ∈ marks || isHexMark c

theorem fixRules_settling : Settling fixRules := by
  have hown : (fixRules.all fun rule ↦ !rule.1.isEmpty && !rule.2.isEmpty &&
      rule.1.all fun c ↦ !rule.2.contains c) = true := by decide
  have hlater : fixRules.Pairwise fun rule rule' ↦
      (rule.1.all fun c ↦ !rule'.2.contains c) = true := by decide
  simp only [List.all_eq_true, Bool.and_eq_true, Bool.not_eq_true', List.isEmpty_eq_false_iff,
    List.contains_eq_mem, decide_eq_false_iff_not] at hown hlater
  constructor
  · exact fun rule hrule ↦ (hown rule hrule).1
  · exact fun rule hrule c ↦ (hown rule hrule).2 c
  · exact hlater.imp fun h c ↦ h c

theorem not_isMark_of_fixed {rule : List Char × List Char} (hrule : rule ∈ fixRules) {c : Char}
    (hc : c ∈ rule.2) : isMark c = false := by
  have htable : (fixRules.all fun rule ↦ rule.2.all fun c ↦ !isMark c) = true := by
    decide
  simp only [List.all_eq_true, Bool.not_eq_true'] at htable
  exact htable rule hrule c hc

/-- No fix rewrites a mark, and the only one of a single character is `Ã`. -/
theorem fixRules_patterns {rule : List Char × List Char} (hrule : rule ∈ fixRules) :
    (∀ c ∈ rule.1, c ∉ ['\\', 'n', 'Ġ', 'Ċ']) ∧ (rule.1.length = 1 → rule.1 = ['Ã']) := by
  have htable : (fixRules.all fun rule ↦ (rule.1.all fun c ↦ c ∉ ['\\', 'n', 'Ġ', 'Ċ']) &&
      (rule.1.length ≠ 1 || rule.1 = ['Ã'])) = true := by decide
  simp only [List.all_eq_true, Bool.and_eq_true, Bool.or_eq_true, decide_eq_true_eq] at htable
  refine ⟨(htable rule hrule).1, fun h ↦ ?_⟩
  exact (htable rule hrule).2.resolve_left fun hne ↦ hne h

theorem rewritten_fixUnicode (token : String) :
    Rewritten fixRules token.toList (fixUnicode token).toList := by
  refine rewritten_foldl (fun fix hfix ↦ ?_) token
  exact (fixRules_settling.ne_nil _ (List.mem_map_of_mem hfix)).1

end Table

section Bytes

variable {a b : Char} {v : ℤ}

theorem isHexMark_of_hexDigit {c : Char} {d : ℤ} (h : hexDigit c = some d) :
    isHexMark c = true := by
  simp [isHexMark, h]

theorem isHexMark_of_hexByte (h : hexByte a b = some v) :
    isHexMark a = true ∧ isHexMark b = true := by
  rw [hexByte] at h
  split at h
  · rename_i ha
    refine ⟨?_, isHexMark_of_hexDigit h⟩
    rcases ha with rfl | ha
    · decide
    · simp [isHexMark, ha]
  · split at h
    · rename_i ha
      obtain ⟨d, hd, -⟩ := Option.map_eq_some_iff.mp h
      exact ⟨ha ▸ (by decide), isHexMark_of_hexDigit hd⟩
    · split at h
      · rename_i hb
        exact ⟨isHexMark_of_hexDigit h, by simp [isHexMark, hb]⟩
      · obtain ⟨d, hd, h⟩ := Option.bind_eq_some_iff.mp h
        obtain ⟨d', hd', -⟩ := Option.bind_eq_some_iff.mp h
        exact ⟨isHexMark_of_hexDigit hd, isHexMark_of_hexDigit hd'⟩

theorem hexDigit_lt {c : Char} {d : ℤ} (h : hexDigit c = some d) : d < 16 := by
  rw [hexDigit] at h
  split at h
  · rename_i hc
    have hle : c.toNat ≤ 'f'.toNat := hc.2
    have hf : 'f'.toNat = 102 := rfl
    have ha : 'a'.toNat = 97 := rfl
    obtain rfl := Option.some.inj h
    omega
  · split at h
    · rename_i hc
      have hle : c.toNat ≤ 'F'.toNat := hc.2
      have hf : 'F'.toNat = 70 := rfl
      have ha : 'A'.toNat = 65 := rfl
      obtain rfl := Option.some.inj h
      omega
    · obtain ⟨first, hfirst, rfl⟩ := Option.map_eq_some_iff.mp h
      have hrange := List.find?_some hfirst
      simp only [decide_eq_true_eq] at hrange
      omega

theorem hexByte_lt_of_newline (h : hexByte a b = some v) (hnl : a = '\n' ∨ b = '\n') :
    v < 16 := by
  rw [hexByte] at h
  split at h
  · exact hexDigit_lt h
  · rename_i ha
    have hb : b = '\n' := hnl.resolve_left fun ha' ↦ ha (.inr (ha' ▸ by decide))
    have hnone : hexDigit '\n' = none := by decide
    have hblank : isBlank '\n' = true := by decide
    rw [hb, hnone, hblank, if_pos rfl] at h
    split at h
    · cases h
    · exact hexDigit_lt h

variable {token c : String}

theorem byteFallback_cases (h : byteFallback token = some c) : ∃ a b v,
    token.toList = ['<', '0', 'x', a, b, '>'] ∧ hexByte a b = some v ∧ 0 ≤ v ∧ v ≤ 255 ∧
      c = String.singleton (Char.ofNat v.toNat) := by
  rw [byteFallback] at h
  split at h
  · rename_i a b htoken
    obtain ⟨v, hv, h⟩ := Option.bind_eq_some_iff.mp h
    split at h
    · rename_i hrange
      exact ⟨a, b, v, htoken, hv, hrange.1, hrange.2, (Option.some.inj h).symm⟩
    · cases h
  · cases h

theorem mem_of_byteFallback (h : byteFallback token = some c) {x : Char} (hx : x ∈ token.toList) :
    x ∈ ['<', '0', 'x', '>'] ∨ isHexMark x = true := by
  obtain ⟨a, b, v, htoken, hv, -⟩ := byteFallback_cases h
  obtain ⟨ha, hb⟩ := isHexMark_of_hexByte hv
  rw [htoken] at hx
  simp only [List.mem_cons, List.not_mem_nil, or_false] at hx ⊢
  rcases hx with rfl | rfl | rfl | rfl | rfl | rfl
  · exact .inl (.inl rfl)
  · exact .inl (.inr (.inl rfl))
  · exact .inl (.inr (.inr (.inl rfl)))
  · exact .inr ha
  · exact .inr hb
  · exact .inl (.inr (.inr (.inr rfl)))

theorem not_mem_of_byteFallback (h : byteFallback token = some c) :
    ∀ x ∈ ['Ċ', '\\'], x ∉ token.toList := by
  intro x hx hmem
  have hmarks : (['Ċ', '\\'].all fun x ↦
      x ∉ ['<', '0', 'x', '>'] && !isHexMark x) = true := by decide
  simp only [List.all_eq_true, Bool.and_eq_true, decide_eq_true_eq, Bool.not_eq_true'] at hmarks
  rcases mem_of_byteFallback h hmem with hframe | hhex
  · exact (hmarks x hx).1 hframe
  · rw [(hmarks x hx).2] at hhex
    cases hhex

end Bytes

section Settled

/-- What the steps before the table of fixes look for is not there. -/
structure Unmarked (token : String) : Prop where
  space : ∀ c ∈ [' ', '_', '▁'], ¬ [c] <+: token.toList
  newline : ¬ ['Ċ'] <:+: token.toList
  escape : ¬ ['\\', 'n'] <:+: token.toList
  whole : token ∉ ["ĉ", "Ġ\n", "Ġ,", "Ġ.", "Ġ;", "Ġ:"]
  byte : byteFallback token = none

/-- No step has anything left to do. -/
structure Settled (token : String) : Prop extends Unmarked token where
  fixes : ∀ rule ∈ fixRules, ¬ rule.1 <:+: token.toList
  special : (specialTokenMap.lookup token).getD token = token

variable {token : String}

theorem normalizeSpace_of_not (h : ∀ c ∈ [' ', '_', '▁'], ¬ [c] <+: token.toList) :
    normalizeSpace token = token := by
  rw [normalizeSpace, if_neg]
  simp only [startsWith_iff]
  rintro (hc | hc | hc)
  · exact h ' ' (by decide) hc
  · exact h '_' (by decide) hc
  · exact h '▁' (by decide) hc

theorem normalizeNewline_of_not (hnewline : ¬ ['Ċ'] <:+: token.toList)
    (hescape : ¬ ['\\', 'n'] <:+: token.toList) (hwhole : token ∉ ["ĉ", "Ġ\n"]) :
    normalizeNewline token = token := by
  rw [normalizeNewline, if_neg, if_neg, if_neg, if_neg, if_neg, if_neg]
  · exact fun h ↦ hescape (pyContains_iff.mp h)
  · exact fun h ↦ hnewline (pyContains_iff.mp h)
  · rintro rfl
    exact hwhole (by decide)
  · rintro rfl
    exact hwhole (by decide)
  · rintro rfl
    exact hescape List.infix_rfl
  · rintro rfl
    exact hnewline List.infix_rfl

theorem normalizePunctuation_of_not (h : token ∉ ["Ġ,", "Ġ.", "Ġ;", "Ġ:"]) :
    normalizePunctuation token = token := by
  simp only [List.mem_cons, List.not_mem_nil, or_false, not_or] at h
  rw [normalizePunctuation, if_neg h.1, if_neg h.2.1, if_neg h.2.2.1, if_neg h.2.2.2]

theorem canonicalToken_of_settled (h : Settled token) : canonicalToken token = token := by
  by_cases hne : token = ""
  · rw [canonicalToken, if_pos hne]
  · have hfix : fixUnicode token = token :=
      String.toList_inj.mp ((rewritten_fixUnicode token).eq_of_not_occurs h.fixes)
    have hwhole := h.whole
    simp only [List.mem_cons, List.not_mem_nil, or_false, not_or] at hwhole
    obtain ⟨htab, hnewline, hpunctuation⟩ := hwhole
    rw [canonicalToken_eq hne, normalizeSpace_of_not h.space,
      normalizeNewline_of_not h.newline h.escape, normalizePunctuation_of_not,
      finish_of_none h.byte, hfix, h.special]
    · simpa only [List.mem_cons, List.not_mem_nil, or_false, not_or] using hpunctuation
    · simp only [List.mem_cons, List.not_mem_nil, or_false, not_or]
      exact ⟨htab, hnewline⟩

theorem disjoint_fixed {q : List Char} (hq : ∀ c ∈ q, isMark c = true) :
    ∀ rule ∈ fixRules, rule.2 ≠ [] ∧ q.Disjoint rule.2 := by
  refine fun rule hrule ↦ ⟨(fixRules_settling.ne_nil rule hrule).2, fun c hc hfixed ↦ ?_⟩
  have hmark := not_isMark_of_fixed hrule hfixed
  rw [hq c hc] at hmark
  cases hmark

theorem isMark_of_subset {q : List Char} (hq : q ⊆ marks) : ∀ c ∈ q, isMark c = true := by
  intro c hc
  simp [isMark, hq hc]

theorem fixUnicode_eq_of_marks (h : ∀ c ∈ (fixUnicode token).toList, isMark c = true) :
    fixUnicode token = token :=
  String.toList_inj.mp ((rewritten_fixUnicode token).eq_of_disjoint (disjoint_fixed h))

theorem Unmarked.fixUnicode (h : Unmarked token) :
    Unmarked (TokenAligner.fixUnicode token) where
  space := by
    intro c hc hpre
    have hspaces : [' ', '_', '▁'] ⊆ marks := by decide
    exact h.space c hc ((rewritten_fixUnicode token).prefix_reflect (disjoint_fixed
      (isMark_of_subset (List.cons_subset.mpr ⟨hspaces hc, List.nil_subset _⟩))) hpre)
  newline := fun hin ↦ h.newline ((rewritten_fixUnicode token).infix_reflect
    (disjoint_fixed (isMark_of_subset (by decide))) hin)
  escape := fun hin ↦ h.escape ((rewritten_fixUnicode token).infix_reflect
    (disjoint_fixed (isMark_of_subset (by decide))) hin)
  whole := by
    intro hwhole
    have hmarks : ∀ t ∈ ["ĉ", "Ġ\n", "Ġ,", "Ġ.", "Ġ;", "Ġ:"], t.toList ⊆ marks := by decide
    rw [fixUnicode_eq_of_marks (isMark_of_subset (hmarks _ hwhole))] at hwhole
    exact h.whole hwhole
  byte := by
    rw [← Option.not_isSome_iff_eq_none, Option.isSome_iff_exists]
    rintro ⟨c, hc⟩
    have hframe : ['<', '0', 'x', '>'] ⊆ marks := by decide
    rw [fixUnicode_eq_of_marks, h.byte] at hc
    · cases hc
    · intro x hx
      rcases mem_of_byteFallback hc hx with hx | hx
      · exact isMark_of_subset hframe x hx
      · simp [isMark, hx]

/-- A token is finished as a byte or a special token, or as its fixes leave it. -/
theorem finish_cases (token : String) :
    (∃ c, byteFallback token = some (String.singleton c) ∧ finish token = String.singleton c) ∨
      (fixUnicode token ∈ specialTokenMap.map Prod.fst ∧ finish token ∈ ["<bos>", ""]) ∨
      finish token = fixUnicode token := by
  cases hbyte : byteFallback token with
  | some c =>
    obtain ⟨-, -, v, -, -, -, -, rfl⟩ := byteFallback_cases hbyte
    exact .inl ⟨_, rfl, finish_of_some hbyte⟩
  | none =>
    rw [finish_of_none hbyte]
    by_cases hspecial : fixUnicode token ∈ specialTokenMap.map Prod.fst
    · have hvalues : ∀ key ∈ specialTokenMap.map Prod.fst,
          (specialTokenMap.lookup key).getD key ∈ ["<bos>", ""] := by decide
      exact .inr (.inl ⟨hspecial, hvalues _ hspecial⟩)
    · refine .inr (.inr ?_)
      rw [List.lookup_eq_none_iff.mpr, Option.getD_none]
      intro entry hentry
      rw [bne_iff_ne]
      rintro heq
      exact hspecial (heq ▸ List.mem_map_of_mem hentry)

/-- A token with no mark left, its fixes applied, is a special token or settled. -/
theorem canonicalToken_finish (h : Unmarked token) :
    canonicalToken (finish token) = finish token := by
  rcases finish_cases token with ⟨c, hbyte, -⟩ | ⟨-, hspecial⟩ | heq
  · rw [h.byte] at hbyte
    cases hbyte
  · have hvalues : ∀ t ∈ ["<bos>", ""], canonicalToken t = t := by decide +kernel
    exact hvalues _ hspecial
  · rw [heq]
    rw [finish_of_none h.byte] at heq
    have hfix := (rewritten_fixUnicode token).not_occurs fixRules_settling
    exact canonicalToken_of_settled ⟨h.fixUnicode, hfix, heq⟩

end Settled

section Steps

variable {token : String}

theorem normalizeSpace_cases (token : String) :
    ((∀ c ∈ [' ', '_', '▁'], ¬ [c] <+: token.toList) ∧ normalizeSpace token = token) ∨
      ∃ c ∈ [' ', '_', '▁'], ∃ rest, token.toList = c :: rest ∧
        (normalizeSpace token).toList = 'Ġ' :: rest := by
  by_cases h : ∀ c ∈ [' ', '_', '▁'], ¬ [c] <+: token.toList
  · exact .inl ⟨h, normalizeSpace_of_not h⟩
  · push Not at h
    obtain ⟨c, hc, rest, hrest⟩ := h
    refine .inr ⟨c, hc, rest, hrest.symm, ?_⟩
    rw [normalizeSpace, if_pos, String.toList_ofList, ← hrest]
    · rfl
    · simp only [startsWith_iff]
      simp only [List.mem_cons, List.not_mem_nil, or_false] at hc
      rcases hc with rfl | rfl | rfl
      · exact .inl ⟨rest, hrest⟩
      · exact .inr (.inl ⟨rest, hrest⟩)
      · exact .inr (.inr ⟨rest, hrest⟩)

theorem not_prefix_normalizeSpace (token : String) :
    ∀ c ∈ [' ', '_', '▁'], ¬ [c] <+: (normalizeSpace token).toList := by
  rcases normalizeSpace_cases token with ⟨h, heq⟩ | ⟨-, -, rest, -, heq⟩
  · rw [heq]
    exact h
  · rw [heq]
    intro c hc hpre
    obtain ⟨rfl, -⟩ := List.cons_prefix_cons.mp hpre
    exact absurd hc (by decide)

/-- What starts with none of the spaces is in a token before and after. -/
theorem infix_normalizeSpace {a : Char} {q : List Char} (ha : a ∉ [' ', '_', '▁', 'Ġ']) :
    a :: q <:+: (normalizeSpace token).toList ↔ a :: q <:+: token.toList := by
  rcases normalizeSpace_cases token with ⟨-, heq⟩ | ⟨c, hc, rest, htoken, heq⟩
  · rw [heq]
  · have hnot : ∀ b ∈ [' ', '_', '▁', 'Ġ'], ¬ a :: q <+: b :: rest := by
      intro b hb hpre
      obtain ⟨rfl, -⟩ := List.cons_prefix_cons.mp hpre
      exact ha hb
    rw [heq, htoken, List.infix_cons_iff, List.infix_cons_iff,
      or_iff_right (hnot 'Ġ' (by decide)), or_iff_right (hnot c (List.mem_append_left ['Ġ'] hc))]

theorem normalizeNewline_cases (token : String) :
    token ∈ ["Ċ", "\\n", "ĉ", "Ġ\n"] ∧ normalizeNewline token = "\n" ∨ token ∉ ["ĉ", "Ġ\n"] ∧
      (['Ċ'] <:+: token.toList ∧
          Substituted ['Ċ'] ['\n'] token.toList (normalizeNewline token).toList ∨
        ¬ ['Ċ'] <:+: token.toList ∧
          Substituted ['\\', 'n'] ['\n'] token.toList (normalizeNewline token).toList) := by
  by_cases hwhole : token ∈ ["Ċ", "\\n", "ĉ", "Ġ\n"]
  · have hmarks : ∀ t ∈ ["Ċ", "\\n", "ĉ", "Ġ\n"], normalizeNewline t = "\n" := by
      decide
    exact .inl ⟨hwhole, hmarks token hwhole⟩
  · simp only [List.mem_cons, List.not_mem_nil, or_false, not_or] at hwhole
    obtain ⟨hmark, hescape, htab, hspace⟩ := hwhole
    refine .inr ⟨by simp [htab, hspace], ?_⟩
    rw [normalizeNewline, if_neg hmark, if_neg hescape, if_neg htab, if_neg hspace]
    split_ifs with hnewline hcontains
    · exact .inl ⟨pyContains_iff.mp hnewline, @substituted_pyReplace _ "Ċ" "\n" (by decide)⟩
    · exact .inr ⟨fun h ↦ hnewline (pyContains_iff.mpr h),
        @substituted_pyReplace _ "\\n" "\n" (by decide)⟩
    · exact .inr ⟨fun h ↦ hnewline (pyContains_iff.mpr h),
        .of_not_occurs fun h ↦ hcontains (pyContains_iff.mpr h)⟩

theorem newline_ne_nil : ['\n'] ≠ [] := List.cons_ne_nil _ _

theorem disjoint_newline {q : List Char} (h : '\n' ∉ q) : q.Disjoint ['\n'] :=
  List.disjoint_singleton.mpr h

theorem not_infix_normalizeNewline
    (h : ¬ (['Ċ'] <:+: token.toList ∧ ['\\', 'n'] <:+: token.toList)) :
    ¬ ['Ċ'] <:+: (normalizeNewline token).toList ∧
      ¬ ['\\', 'n'] <:+: (normalizeNewline token).toList := by
  have hmark := disjoint_newline (q := ['Ċ']) (by decide)
  have hescape := disjoint_newline (q := ['\\', 'n']) (by decide)
  rcases normalizeNewline_cases token with ⟨-, heq⟩ | ⟨-, ⟨hin, hsub⟩ | ⟨hnot, hsub⟩⟩
  · rw [heq]
    decide
  · refine ⟨hsub.not_occurs (List.cons_ne_nil _ _) newline_ne_nil hmark, fun hout ↦ ?_⟩
    exact h ⟨hin, hsub.infix_reflect newline_ne_nil hescape hout⟩
  · refine ⟨fun hout ↦ ?_, hsub.not_occurs (List.cons_ne_nil _ _) newline_ne_nil hescape⟩
    exact hnot (hsub.infix_reflect newline_ne_nil hmark hout)

theorem prefix_of_normalizeNewline {c : Char} (hc : '\n' ≠ c)
    (h : [c] <+: (normalizeNewline token).toList) : [c] <+: token.toList := by
  have hdisjoint : [c].Disjoint ['\n'] :=
    disjoint_newline fun hmem ↦ hc (List.mem_singleton.mp hmem)
  rcases normalizeNewline_cases token with ⟨-, heq⟩ | ⟨-, ⟨-, hsub⟩ | ⟨-, hsub⟩⟩
  · rw [heq] at h
    exact absurd (List.cons_prefix_cons.mp h).1.symm hc
  · exact hsub.prefix_reflect newline_ne_nil hdisjoint h
  · exact hsub.prefix_reflect newline_ne_nil hdisjoint h

theorem normalizeNewline_eq_of_not_mem (h : '\n' ∉ (normalizeNewline token).toList) :
    normalizeNewline token = token := by
  rcases normalizeNewline_cases token with ⟨-, heq⟩ | ⟨-, ⟨-, hsub⟩ | ⟨-, hsub⟩⟩
  · rw [heq] at h
    exact absurd (List.mem_singleton_self '\n') h
  · exact String.toList_inj.mp (hsub.eq_of_disjoint newline_ne_nil (disjoint_newline h))
  · exact String.toList_inj.mp (hsub.eq_of_disjoint newline_ne_nil (disjoint_newline h))

/-- A replacement that leaves a space and a newline started from them or from the pattern. -/
theorem eq_of_space_newline {p l : List Char} (h : Substituted p ['\n'] l ['Ġ', '\n']) :
    l = ['Ġ', '\n'] ∨ l = 'Ġ' :: p := by
  rcases h.cons_cases with ⟨rest, rfl, hrest⟩ | ⟨hfalse, -⟩
  · rcases hrest.cons_cases with ⟨rest, rfl, hnil⟩ | ⟨-, rest, rfl, hnil⟩
    · rw [hnil.eq_nil newline_ne_nil]
      exact .inl rfl
    · rw [hnil.eq_nil newline_ne_nil, List.append_nil]
      exact .inr rfl
  · cases hfalse

theorem normalizeNewline_whole (h : ∀ p ∈ [['Ċ'], ['\\', 'n']], token.toList ≠ 'Ġ' :: p) :
    normalizeNewline token ∉ ["ĉ", "Ġ\n"] := by
  rcases normalizeNewline_cases token with ⟨-, heq⟩ | ⟨hwhole, hsub⟩
  · rw [heq]
    decide
  · have hchars : "Ġ\n".toList = ['Ġ', '\n'] := by decide
    intro hmem
    rcases List.mem_cons.mp hmem with htab | hspace
    · rw [normalizeNewline_eq_of_not_mem (htab ▸ by decide)] at hmem
      exact hwhole hmem
    · rw [List.mem_singleton.mp hspace, hchars] at hsub
      rcases hsub with ⟨-, hsub⟩ | ⟨-, hsub⟩
      all_goals
        rcases eq_of_space_newline hsub with heq | heq
        · rw [String.toList_inj.mp (heq.trans hchars.symm)] at hwhole
          exact hwhole (by decide)
        · exact h _ (by decide) heq

end Steps

section Singles

variable {c : Char}

theorem not_fix_infix_singleton (hc : c ≠ 'Ã') : ∀ rule ∈ fixRules, ¬ rule.1 <:+: [c] := by
  intro rule hrule hin
  have hlen : rule.1.length = 1 := by
    have hpos := List.length_pos_iff.mpr (fixRules_settling.ne_nil rule hrule).1
    have hle := hin.length_le
    rw [List.length_singleton] at hle
    omega
  have heq := hin.eq_of_length hlen
  rw [(fixRules_patterns hrule).2 hlen] at heq
  exact hc (List.cons.inj heq).1.symm

theorem length_of_special {token : String}
    (h : (specialTokenMap.lookup token).getD token ≠ token) : 5 ≤ token.toList.length := by
  by_contra hlen
  have hkeys : ∀ entry ∈ specialTokenMap, 5 ≤ entry.1.toList.length := by decide
  have hnone : specialTokenMap.lookup token = none := by
    rw [List.lookup_eq_none_iff]
    intro entry hentry
    rw [bne_iff_ne]
    rintro rfl
    exact hlen (hkeys entry hentry)
  rw [hnone] at h
  exact h rfl

theorem byteFallback_of_length {token : String} (h : token.toList.length ≠ 6) :
    byteFallback token = none := by
  rw [← Option.not_isSome_iff_eq_none, Option.isSome_iff_exists]
  rintro ⟨c, hc⟩
  obtain ⟨a, b, v, htoken, -⟩ := byteFallback_cases hc
  rw [htoken] at h
  exact h rfl

theorem settled_singleton (h : c ∉ [' ', '_', '▁', 'Ċ', 'ĉ', 'Ã']) :
    Settled (String.singleton c) := by
  have hchars : (String.singleton c).toList = [c] := String.toList_singleton c
  simp only [List.mem_cons, List.not_mem_nil, or_false, not_or] at h
  obtain ⟨hspace, hunder, hblock, hmark, htab, hfix⟩ := h
  refine ⟨⟨?_, ?_, ?_, ?_, ?_⟩, ?_, ?_⟩
  · intro x hx hpre
    rw [hchars] at hpre
    obtain rfl := (List.cons_prefix_cons.mp hpre).1
    simp [hspace, hunder, hblock] at hx
  · intro hin
    rw [hchars] at hin
    exact hmark (List.cons.inj (hin.eq_of_length rfl)).1.symm
  · intro hin
    have hle := hin.length_le
    rw [hchars, List.length_singleton] at hle
    exact absurd hle (by decide)
  · intro hmem
    have hwhole : ∀ t ∈ ["ĉ", "Ġ\n", "Ġ,", "Ġ.", "Ġ;", "Ġ:"], t.toList.length = 1 →
        t.toList = ['ĉ'] := by decide
    have heq := hwhole _ hmem (by rw [hchars]; rfl)
    rw [hchars] at heq
    exact htab (List.cons.inj heq).1
  · exact byteFallback_of_length (by rw [hchars]; exact (by decide : 1 ≠ 6))
  · rw [hchars]
    exact not_fix_infix_singleton hfix
  · by_contra hspecial
    have hlen := length_of_special hspecial
    rw [hchars, List.length_singleton] at hlen
    exact absurd hlen (by decide)

end Singles

section Idempotence

/-- The canonical form of a token is rewritten again: the byte of a fallback is a space or
`Ã`, a space and a newline mark are the whole token, or both newline marks are there. -/
def Unsettled (token : String) : Prop :=
  byteFallback token ∈ [some " ", some "_", some "Ã"] ∨
    token ∈ [" Ċ", "_Ċ", "▁Ċ", "ĠĊ", " \\n", "_\\n", "▁\\n", "Ġ\\n"] ∨
    pyContains token "Ċ" ∧ pyContains token "\\n"

variable {token : String}

theorem toNat_byte {v : ℤ} (h0 : 0 ≤ v) (h255 : v ≤ 255) :
    ((Char.ofNat v.toNat).toNat : ℤ) = v := by
  rw [Char.toNat_ofNat, if_pos (.inl (by omega)), Int.toNat_of_nonneg h0]

theorem canonicalToken_byte {v : ℤ} (h0 : 0 ≤ v) (h255 : v ≤ 255)
    (h : String.singleton (Char.ofNat v.toNat) ∉ [" ", "_", "Ã"]) :
    canonicalToken (String.singleton (Char.ofNat v.toNat)) =
      String.singleton (Char.ofNat v.toNat) := by
  have hlow : ∀ c ∈ [' ', '_', 'Ã'], String.singleton c ∈ [" ", "_", "Ã"] := by simp
  have hhigh : ∀ c ∈ ['▁', 'Ċ', 'ĉ'], 255 < c.toNat := by simp
  have hbyte := toNat_byte h0 h255
  generalize Char.ofNat v.toNat = c at h hbyte ⊢
  refine canonicalToken_of_settled (settled_singleton fun hmem ↦ ?_)
  rcases List.mem_append.mp
    (show c ∈ [' ', '_'] ++ ['▁', 'Ċ', 'ĉ'] ++ ['Ã'] from hmem) with hmem | hfix
  · rcases List.mem_append.mp hmem with hspace | hmark
    · exact h (hlow c (List.mem_append_left ['Ã'] hspace))
    · have hlt := hhigh c hmark
      omega
  · exact h (hlow c (List.mem_append_right [' ', '_'] hfix))

/-- The byte fallback applies to a token that was not touched, or gives a digit's byte. -/
theorem byteFallback_normalizeNewline {c : String}
    (h : byteFallback (normalizeNewline (normalizeSpace token)) = some c) :
    normalizeNewline (normalizeSpace token) = token ∨
      ∃ v : ℤ, 0 ≤ v ∧ v < 16 ∧ c = String.singleton (Char.ofNat v.toNat) := by
  obtain ⟨a, b, v, hchars, hv, h0, -, hc⟩ := byteFallback_cases h
  by_cases hnl : '\n' ∈ (normalizeNewline (normalizeSpace token)).toList
  · refine .inr ⟨v, h0, hexByte_lt_of_newline hv ?_, hc⟩
    rw [hchars] at hnl
    simpa [eq_comm] using hnl
  · have hframe : ['<'] <+: (normalizeSpace token).toList := by
      refine prefix_of_normalizeNewline (by decide) ?_
      rw [hchars]
      exact List.cons_prefix_cons.mpr ⟨rfl, List.nil_prefix⟩
    rw [normalizeNewline_eq_of_not_mem hnl]
    rcases normalizeSpace_cases token with ⟨-, heq⟩ | ⟨-, -, rest, -, heq⟩
    · exact .inl heq
    · rw [heq] at hframe
      exact absurd (List.cons_prefix_cons.mp hframe).1 (by decide)

theorem normalizeSpace_ne (h : ¬ Unsettled token) :
    ∀ p ∈ [['Ċ'], ['\\', 'n']], (normalizeSpace token).toList ≠ 'Ġ' :: p := by
  intro p hp heq
  have hwhole : ([' ', '_', '▁', 'Ġ'].all fun c ↦ [['Ċ'], ['\\', 'n']].all fun p ↦
      [" Ċ", "_Ċ", "▁Ċ", "ĠĊ", " \\n", "_\\n", "▁\\n", "Ġ\\n"].contains
        (String.ofList (c :: p))) = true := by decide
  simp only [List.all_eq_true, List.contains_eq_mem, decide_eq_true_eq] at hwhole
  obtain ⟨c, hc, htoken⟩ : ∃ c ∈ [' ', '_', '▁', 'Ġ'], token.toList = c :: p := by
    rcases normalizeSpace_cases token with ⟨-, hsame⟩ | ⟨c, hc, rest, htoken, hspace⟩
    · exact ⟨'Ġ', by decide, hsame ▸ heq⟩
    · rw [hspace] at heq
      obtain rfl := (List.cons.inj heq).2
      exact ⟨c, List.mem_append_left ['Ġ'] hc, htoken⟩
  have hmem := hwhole c hc p hp
  rw [← htoken, String.ofList_toList] at hmem
  exact h (.inr (.inl hmem))

theorem not_both (h : ¬ Unsettled token) : ¬ (['Ċ'] <:+: (normalizeSpace token).toList ∧
    ['\\', 'n'] <:+: (normalizeSpace token).toList) := by
  rw [infix_normalizeSpace (by decide), infix_normalizeSpace (by decide)]
  exact fun hboth ↦ h (.inr (.inr ⟨pyContains_iff.mpr hboth.1, pyContains_iff.mpr hboth.2⟩))

/-- The canonical form of a token that is not unsettled is canonical. -/
theorem canonicalToken_canonicalToken (h : ¬ Unsettled token) :
    canonicalToken (canonicalToken token) = canonicalToken token := by
  by_cases hne : token = ""
  · subst hne
    rfl
  · rw [canonicalToken_eq hne]
    by_cases hpunctuation : normalizeNewline (normalizeSpace token) ∈ ["Ġ,", "Ġ.", "Ġ;", "Ġ:"]
    · have htable : ∀ t ∈ ["Ġ,", "Ġ.", "Ġ;", "Ġ:"], canonicalToken (finish
          (normalizePunctuation t)) = finish (normalizePunctuation t) := by decide +kernel
      exact htable _ hpunctuation
    · rw [normalizePunctuation_of_not hpunctuation]
      cases hbyte : byteFallback (normalizeNewline (normalizeSpace token)) with
      | some c =>
        rw [finish_of_some hbyte]
        rcases byteFallback_normalizeNewline hbyte with heq | ⟨v, h0, hlt, rfl⟩
        · obtain ⟨-, -, v, -, -, h0, h255, rfl⟩ := byteFallback_cases hbyte
          rw [heq] at hbyte
          refine canonicalToken_byte h0 h255 fun hmem ↦ h (.inl ?_)
          rw [hbyte]
          exact List.mem_map_of_mem hmem
        · refine canonicalToken_byte h0 (by omega) fun hmem ↦ ?_
          have hchars : ([" ", "_", "Ã"].all fun t ↦ t.toList.all fun c ↦ 16 ≤ c.toNat) = true := by
            decide
          simp only [List.all_eq_true, decide_eq_true_eq] at hchars
          have hle := hchars _ hmem (Char.ofNat v.toNat)
            (by rw [String.toList_singleton]; exact List.mem_singleton_self _)
          have hbyte := toNat_byte h0 (by omega)
          omega
      | none =>
        obtain ⟨hnewline, hescape⟩ := not_infix_normalizeNewline (not_both h)
        refine canonicalToken_finish ⟨?_, hnewline, hescape, ?_, hbyte⟩
        · intro c hc hpre
          refine not_prefix_normalizeSpace token c hc (prefix_of_normalizeNewline ?_ hpre)
          rintro rfl
          exact absurd hc (by decide)
        · intro hmem
          rcases List.mem_append.mp
            (show _ ∈ ["ĉ", "Ġ\n"] ++ ["Ġ,", "Ġ.", "Ġ;", "Ġ:"] from hmem) with hwhole | hmem
          · exact normalizeNewline_whole (normalizeSpace_ne h) hwhole
          · exact hpunctuation hmem

theorem canonicalToken_of_byteFallback {c : String} (h : byteFallback token = some c) :
    canonicalToken token = c := by
  obtain ⟨a, b, v, hchars, -⟩ := byteFallback_cases h
  have hnot := not_mem_of_byteFallback h
  have hwhole : ∀ t ∈ ["ĉ", "Ġ\n", "Ġ,", "Ġ.", "Ġ;", "Ġ:"], token ≠ t := by
    have hlength : ∀ t ∈ ["ĉ", "Ġ\n", "Ġ,", "Ġ.", "Ġ;", "Ġ:"], t.toList.length ≠ 6 := by decide
    rintro t ht rfl
    exact hlength token ht (by rw [hchars]; rfl)
  rw [canonicalToken_eq, normalizeSpace_of_not, normalizeNewline_of_not,
    normalizePunctuation_of_not, finish_of_some h]
  · exact fun hmem ↦ hwhole token (List.mem_append_right ["ĉ", "Ġ\n"] hmem) rfl
  · exact fun hin ↦ hnot 'Ċ' (by decide) (hin.subset (List.mem_singleton_self _))
  · exact fun hin ↦ hnot '\\' (by decide) (hin.subset (List.mem_cons_self ..))
  · exact fun hmem ↦ hwhole token (List.mem_append_left ["Ġ,", "Ġ.", "Ġ;", "Ġ:"] hmem) rfl
  · intro x hx hpre
    rw [hchars] at hpre
    obtain rfl := (List.cons_prefix_cons.mp hpre).1
    exact absurd hx (by decide)
  · rintro rfl
    exact absurd hchars (by simp)

theorem not_escape_of_short {l : List Char} (h : l.length ≤ 1) : ¬ ['\\', 'n'] <:+: l := by
  intro hin
  have hle := hin.length_le
  rw [List.length_cons, List.length_singleton] at hle
  omega

theorem not_escape_canonicalToken (h : ¬ ['Ċ'] <:+: token.toList) :
    ¬ ['\\', 'n'] <:+: (canonicalToken token).toList := by
  by_cases hne : token = ""
  · subst hne
    exact not_escape_of_short (by decide)
  · have hescape := (not_infix_normalizeNewline fun hboth ↦
      h ((infix_normalizeSpace (by decide)).mp hboth.1)).2
    rw [canonicalToken_eq hne]
    have hpunctuation : ¬ ['\\', 'n'] <:+:
        (normalizePunctuation (normalizeNewline (normalizeSpace token))).toList := by
      by_cases hmem : normalizeNewline (normalizeSpace token) ∈ ["Ġ,", "Ġ.", "Ġ;", "Ġ:"]
      · have hshort : ∀ t ∈ ["Ġ,", "Ġ.", "Ġ;", "Ġ:"],
            (normalizePunctuation t).toList.length ≤ 1 := by decide
        exact not_escape_of_short (hshort _ hmem)
      · rw [normalizePunctuation_of_not hmem]
        exact hescape
    rcases finish_cases (normalizePunctuation (normalizeNewline (normalizeSpace token))) with
      ⟨c, -, heq⟩ | ⟨-, hspecial⟩ | heq
    · rw [heq, String.toList_singleton]
      exact not_escape_of_short le_rfl
    · have hvalues : ∀ t ∈ ["<bos>", ""], ¬ ['\\', 'n'] <:+: t.toList := by decide
      exact hvalues _ hspecial
    · rw [heq]
      exact fun hin ↦ hpunctuation ((rewritten_fixUnicode _).infix_reflect
        (disjoint_fixed (isMark_of_subset (by decide))) hin)

theorem escape_canonicalToken (hnewline : ['Ċ'] <:+: token.toList)
    (hescape : ['\\', 'n'] <:+: token.toList) :
    ['\\', 'n'] <:+: (canonicalToken token).toList ∧
      ¬ ['Ċ'] <:+: (canonicalToken token).toList := by
  have hne : token ≠ "" := by
    rintro rfl
    exact absurd hnewline (by decide)
  have hsub : Substituted ['Ċ'] ['\n'] (normalizeSpace token).toList
      (normalizeNewline (normalizeSpace token)).toList := by
    rw [← infix_normalizeSpace (by decide)] at hnewline hescape
    rcases normalizeNewline_cases (normalizeSpace token) with
      ⟨hmem, -⟩ | ⟨-, ⟨-, hsub⟩ | ⟨hnot, -⟩⟩
    · have hmarks : ∀ t ∈ ["Ċ", "\\n", "ĉ", "Ġ\n"],
          ¬ (['Ċ'] <:+: t.toList ∧ ['\\', 'n'] <:+: t.toList) := by decide
      exact absurd ⟨hnewline, hescape⟩ (hmarks _ hmem)
    · exact hsub
    · exact absurd hnewline hnot
  have hleft : ['\\', 'n'] <:+: (normalizeNewline (normalizeSpace token)).toList :=
    hsub.infix_preserve (List.cons_ne_nil _ _) (List.disjoint_singleton.mpr (by decide))
      ((infix_normalizeSpace (by decide)).mpr hescape)
  have hgone : ¬ ['Ċ'] <:+: (normalizeNewline (normalizeSpace token)).toList :=
    hsub.not_occurs (List.cons_ne_nil _ _) newline_ne_nil (disjoint_newline (by decide))
  have hfix := rewritten_fixUnicode (normalizeNewline (normalizeSpace token))
  have hkept : ['\\', 'n'] <:+: (fixUnicode (normalizeNewline (normalizeSpace token))).toList := by
    refine hfix.infix_preserve (fun rule hrule ↦ ?_) hleft
    refine ⟨(fixRules_settling.ne_nil rule hrule).1, fun c hc hpattern ↦ ?_⟩
    exact (fixRules_patterns hrule).1 c hpattern (List.mem_append_left ['Ġ', 'Ċ'] hc)
  rw [canonicalToken_eq hne, normalizePunctuation_of_not]
  · rcases finish_cases (normalizeNewline (normalizeSpace token)) with
      ⟨c, hbyte, -⟩ | ⟨hspecial, -⟩ | heq
    · exact absurd (hleft.subset (List.mem_cons_self ..))
        (not_mem_of_byteFallback hbyte '\\' (by decide))
    · have hkeys : ∀ key ∈ specialTokenMap.map Prod.fst, ¬ ['\\', 'n'] <:+: key.toList := by
        decide
      exact absurd hkept (hkeys _ hspecial)
    · rw [heq]
      exact ⟨hkept, fun hin ↦ hgone (hfix.infix_reflect
        (disjoint_fixed (isMark_of_subset (by decide))) hin)⟩
  · have hkeys : ∀ t ∈ ["Ġ,", "Ġ.", "Ġ;", "Ġ:"], ¬ ['\\', 'n'] <:+: t.toList := by
      decide
    exact fun hmem ↦ hkeys _ hmem hleft

/-- Canonicalizing again changes nothing, exactly when the token is not unsettled. -/
theorem canonicalToken_canonicalToken_iff (token : String) :
    canonicalToken (canonicalToken token) = canonicalToken token ↔ ¬ Unsettled token := by
  refine ⟨fun hidem ↦ ?_, canonicalToken_canonicalToken⟩
  rintro (hbyte | hwhole | ⟨hnewline, hescape⟩)
  · have hbytes : ([" ", "_", "Ã"].all fun c ↦ canonicalToken c ≠ c) = true := by decide +kernel
    simp only [List.all_eq_true, decide_eq_true_eq] at hbytes
    obtain ⟨c, hc, heq⟩ := List.mem_map.mp (show _ ∈ [" ", "_", "Ã"].map some from hbyte)
    rw [canonicalToken_of_byteFallback heq.symm] at hidem
    exact hbytes c hc hidem
  · have htable : ([" Ċ", "_Ċ", "▁Ċ", "ĠĊ", " \\n", "_\\n", "▁\\n", "Ġ\\n"].all fun t ↦
        canonicalToken (canonicalToken t) ≠ canonicalToken t) = true := by decide +kernel
    simp only [List.all_eq_true, decide_eq_true_eq] at htable
    exact htable token hwhole hidem
  · obtain ⟨hkept, hgone⟩ := escape_canonicalToken (pyContains_iff.mp hnewline)
      (pyContains_iff.mp hescape)
    rw [← hidem] at hkept
    exact not_escape_canonicalToken hgone hkept

end Idempotence

end NemoRL.XToken.TokenAligner
