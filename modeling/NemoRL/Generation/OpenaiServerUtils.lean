import Mathlib

namespace NemoRL.Generation

variable {τ : Type} [DecidableEq τ]

inductive PrefixError
  | noEosTokenId
  | eosNotFound (countNeeded countSeen : ℕ)
  deriving DecidableEq

/-- The loop over the template's tokens: where the EOS with the needed number stands,
and how many were seen. -/
def templateCut (eos : τ) (countNeeded : ℕ) : ℕ → ℕ → List τ → Option ℕ × ℕ
  | _, countSeen, [] => (none, countSeen)
  | pos, countSeen, tid :: rest =>
    if tid = eos then
      if countSeen + 1 = countNeeded then (some pos, countSeen + 1)
      else templateCut eos countNeeded (pos + 1) (countSeen + 1) rest
    else templateCut eos countNeeded (pos + 1) countSeen rest

def replacePrefixTokens (eosTokenId : Option τ)
    (modelPrefixTokenIds templatePrefixTokenIds templateTokenIds : List τ) :
    Except PrefixError (List τ) :=
  if modelPrefixTokenIds = [] then .ok templateTokenIds
  else match eosTokenId with
    | none => .error .noEosTokenId
    | some eos =>
      let modelCutEnd :=
        if modelPrefixTokenIds.getLast? = some eos then modelPrefixTokenIds.length - 1
        else modelPrefixTokenIds.length
      let countNeeded := templatePrefixTokenIds.count eos
      match templateCut eos countNeeded 0 0 templateTokenIds with
      | (none, countSeen) => .error (.eosNotFound countNeeded countSeen)
      | (some templateCutStart, _) =>
        .ok (modelPrefixTokenIds.take modelCutEnd ++ templateTokenIds.drop templateCutStart)

section Occurrences

variable {eos : τ}

theorem exists_occurrence {l : List τ} {n : ℕ} (h : n < l.count eos) :
    ∃ kept rest, l = kept ++ eos :: rest ∧ kept.count eos = n := by
  induction l generalizing n with
  | nil => exact absurd h (Nat.not_lt_zero n)
  | cons tid l ih =>
    by_cases htid : tid = eos
    · subst htid
      cases n with
      | zero => exact ⟨[], l, rfl, rfl⟩
      | succ n =>
        rw [List.count_cons_self] at h
        obtain ⟨kept, rest, hl, hcount⟩ := ih (Nat.lt_of_succ_lt_succ h)
        exact ⟨tid :: kept, rest, by rw [hl, List.cons_append], by rw [List.count_cons_self, hcount]⟩
    · rw [List.count_cons_of_ne htid] at h
      obtain ⟨kept, rest, hl, hcount⟩ := ih h
      exact ⟨tid :: kept, rest, by rw [hl, List.cons_append],
        by rw [List.count_cons_of_ne htid, hcount]⟩

theorem templateCut_of_occurrence {countNeeded : ℕ} (kept rest : List τ) (pos countSeen : ℕ)
    (h : countSeen + kept.count eos + 1 = countNeeded) :
    templateCut eos countNeeded pos countSeen (kept ++ eos :: rest) =
      (some (pos + kept.length), countNeeded) := by
  induction kept generalizing pos countSeen with
  | nil =>
    rw [List.count_nil, Nat.add_zero] at h
    rw [List.nil_append, templateCut, if_pos rfl, if_pos h, h]
    rfl
  | cons tid kept ih =>
    rw [List.cons_append, templateCut, List.length_cons]
    by_cases htid : tid = eos
    · subst htid
      rw [List.count_cons_self] at h
      rw [if_pos rfl, if_neg (by omega), ih (pos + 1) (countSeen + 1) (by omega)]
      congr 2
      omega
    · rw [List.count_cons_of_ne htid] at h
      rw [if_neg htid, ih (pos + 1) countSeen h]
      congr 2
      omega

theorem templateCut_of_few {countNeeded : ℕ} (l : List τ) (pos countSeen : ℕ)
    (h : countNeeded ≤ countSeen ∨ countSeen + l.count eos < countNeeded) :
    templateCut eos countNeeded pos countSeen l = (none, countSeen + l.count eos) := by
  induction l generalizing pos countSeen with
  | nil => rfl
  | cons tid l ih =>
    rw [templateCut]
    by_cases htid : tid = eos
    · subst htid
      rw [List.count_cons_self] at h ⊢
      rw [if_pos rfl, if_neg (by omega), ih (pos + 1) (countSeen + 1) (by omega)]
      congr 1
      omega
    · rw [List.count_cons_of_ne htid] at h ⊢
      rw [if_neg htid, ih (pos + 1) countSeen h]

end Occurrences

section Splice

variable {eos : τ} {modelPrefix templatePrefix template : List τ}

def closingEos (eos : τ) (modelPrefix : List τ) : List τ :=
  if modelPrefix.getLast? = some eos then [] else [eos]

theorem take_modelCutEnd (rest : List τ) :
    modelPrefix.take (if modelPrefix.getLast? = some eos then modelPrefix.length - 1
        else modelPrefix.length) ++ eos :: rest =
      modelPrefix ++ closingEos eos modelPrefix ++ rest := by
  rw [closingEos]
  by_cases hlast : modelPrefix.getLast? = some eos
  · have hconcat : modelPrefix.dropLast ++ [eos] = modelPrefix := by
      obtain ⟨init, hinit⟩ := List.getLast?_eq_some_iff.mp hlast
      rw [hinit, List.dropLast_concat]
    rw [if_pos hlast, if_pos hlast, List.append_nil, ← List.dropLast_eq_take]
    conv_rhs => rw [← hconcat, List.append_assoc]
    rfl
  · rw [if_neg hlast, if_neg hlast, List.take_length, List.append_assoc]
    rfl

theorem replacePrefixTokens_of_occurrence (hmodel : modelPrefix ≠ []) {kept rest : List τ}
    (htemplate : template = kept ++ eos :: rest)
    (hcount : kept.count eos + 1 = templatePrefix.count eos) :
    replacePrefixTokens (some eos) modelPrefix templatePrefix template =
      .ok (modelPrefix ++ closingEos eos modelPrefix ++ rest) := by
  have hcut : templateCut eos (templatePrefix.count eos) 0 0 template =
      (some kept.length, templatePrefix.count eos) := by
    rw [htemplate, templateCut_of_occurrence kept rest 0 0 (by omega), Nat.zero_add]
  have hdrop : template.drop kept.length = eos :: rest := by rw [htemplate, List.drop_left]
  simp only [replacePrefixTokens, if_neg hmodel, hcut, hdrop, take_modelCutEnd]

theorem replacePrefixTokens_nil (eosTokenId : Option τ) :
    replacePrefixTokens eosTokenId [] templatePrefix template = .ok template := if_pos rfl

theorem replacePrefixTokens_of_few (hmodel : modelPrefix ≠ [])
    (hfew : templatePrefix.count eos = 0 ∨ template.count eos < templatePrefix.count eos) :
    replacePrefixTokens (some eos) modelPrefix templatePrefix template =
      .error (.eosNotFound (templatePrefix.count eos) (template.count eos)) := by
  have hcut := @templateCut_of_few _ _ eos (templatePrefix.count eos) template 0 0 (by omega)
  rw [Nat.zero_add] at hcut
  simp only [replacePrefixTokens, if_neg hmodel, hcut]

/-- With something to keep, the splice is refused exactly where the template's prefix
has no EOS or the template has fewer. -/
theorem replacePrefixTokens_error_iff :
    (∃ e, replacePrefixTokens (some eos) modelPrefix templatePrefix template = .error e) ↔
      modelPrefix ≠ [] ∧
        (templatePrefix.count eos = 0 ∨ template.count eos < templatePrefix.count eos) := by
  constructor
  · rintro ⟨e, he⟩
    have hmodel : modelPrefix ≠ [] := fun hnil ↦ by
      rw [hnil, replacePrefixTokens_nil] at he
      cases he
    refine ⟨hmodel, not_not.mp fun hmany ↦ ?_⟩
    rw [not_or, not_lt] at hmany
    obtain ⟨kept, rest, htemplate, hcount⟩ := exists_occurrence
      (show templatePrefix.count eos - 1 < template.count eos by omega)
    rw [replacePrefixTokens_of_occurrence hmodel htemplate (by omega)] at he
    cases he
  · rintro ⟨hmodel, hfew⟩
    exact ⟨_, replacePrefixTokens_of_few hmodel hfew⟩

end Splice

end NemoRL.Generation
