import Mathlib

namespace NemoRL.Models.Draft

def wrapperPrefixes : List (List Char) :=
  ["draft.".toList, "module.".toList, "eagle_module.".toList]

/-- The body of the loop over the prefixes: the key, and whether it has changed. -/
def stripWrapper (state : List Char × Bool) (wrapper : List Char) : List Char × Bool :=
  if wrapper.isPrefixOf state.1 then (state.1.drop wrapper.length, true) else state

def stripPass (key : List Char) : List Char × Bool :=
  wrapperPrefixes.foldl stripWrapper (key, false)

theorem length_drop_wrapper {w key : List Char} (hw : w ∈ wrapperPrefixes)
    (hpre : w.isPrefixOf key) : (key.drop w.length).length < key.length := by
  have hne : ∀ w ∈ wrapperPrefixes, w ≠ [] := by decide
  have hle := (List.isPrefixOf_iff_prefix.mp hpre).length_le
  have hpos := List.length_pos_iff.mpr (hne w hw)
  rw [List.length_drop]
  omega

theorem stripFold_length (wrappers : List (List Char)) (hw : wrappers ⊆ wrapperPrefixes)
    (key : List Char) (start : List Char × Bool) (hle : start.1.length ≤ key.length)
    (hlt : start.2 = true → start.1.length < key.length) :
    (wrappers.foldl stripWrapper start).2 = true →
      (wrappers.foldl stripWrapper start).1.length < key.length := by
  induction wrappers generalizing start with
  | nil => exact hlt
  | cons w wrappers ih =>
    obtain ⟨hmem, hrest⟩ := List.cons_subset.mp hw
    rw [List.foldl_cons]
    by_cases hpre : w.isPrefixOf start.1
    · have hshort := (length_drop_wrapper hmem hpre).trans_le hle
      rw [stripWrapper, if_pos hpre]
      exact ih hrest _ hshort.le fun _ ↦ hshort
    · rw [stripWrapper, if_neg hpre]
      exact ih hrest _ hle hlt

theorem stripPass_length {key : List Char} (h : (stripPass key).2 = true) :
    (stripPass key).1.length < key.length :=
  stripFold_length wrapperPrefixes (List.Subset.refl _) key (key, false) le_rfl nofun h

def normalizeHfKey (key : List Char) : List Char :=
  if (stripPass key).2 = true then normalizeHfKey (stripPass key).1 else (stripPass key).1
termination_by key.length
decreasing_by exact stripPass_length ‹_›

/-- The tensors of a layer of a checkpoint. -/
inductive LayerPart
  | qkvProj | qProj | kProj | vProj | oProj
  | gateUpProj | gateProj | upProj | downProj
  | hiddenNorm | inputLayernorm | postAttentionLayernorm
  deriving DecidableEq

namespace LayerPart

def key : LayerPart → String
  | qkvProj => "self_attn.qkv_proj.weight"
  | qProj => "self_attn.q_proj.weight"
  | kProj => "self_attn.k_proj.weight"
  | vProj => "self_attn.v_proj.weight"
  | oProj => "self_attn.o_proj.weight"
  | gateUpProj => "mlp.gate_up_proj.weight"
  | gateProj => "mlp.gate_proj.weight"
  | upProj => "mlp.up_proj.weight"
  | downProj => "mlp.down_proj.weight"
  | hiddenNorm => "hidden_norm.weight"
  | inputLayernorm => "input_layernorm.weight"
  | postAttentionLayernorm => "post_attention_layernorm.weight"

def all : List LayerPart :=
  [qkvProj, qProj, kProj, vProj, oProj, gateUpProj, gateProj, upProj, downProj, hiddenNorm,
    inputLayernorm, postAttentionLayernorm]

def ofKey (layerKey : List Char) : Option LayerPart := all.find? fun p ↦ p.key.toList = layerKey

theorem ofKey_key (p : LayerPart) : ofKey p.key.toList = some p := by
  cases p <;> decide

end LayerPart

/-- `_parse_layer_checkpoint_key`: `midlayer.` or `layers.`, digits, a dot and a
key that is not empty. -/
def parseLayerCheckpointKey (key : List Char) : Option (ℕ × List Char) :=
  if "midlayer.".toList.isPrefixOf key then some (0, key.drop "midlayer.".toList.length)
  else if "layers.".toList.isPrefixOf key then
    let rest := key.drop "layers.".toList.length
    let digits := rest.takeWhile Char.isDigit
    match rest.drop digits.length with
    | '.' :: c :: cs =>
      if digits = [] then none else some (Nat.ofDigitChars 10 digits 0, c :: cs)
    | _ => none
  else none

/-- What a key of a checkpoint names, as far as the import is concerned. -/
inductive HfName
  | fc
  | norm
  | lmHead
  | d2t
  | layer (index : ℕ) (layerKey : List Char)
  | other
  deriving DecidableEq

def HfName.ofBareKey (key : List Char) : HfName :=
  if key = "fc.weight".toList then .fc
  else if key = "norm.weight".toList then .norm
  else if key = "lm_head.weight".toList ∨ key = "eagle_output_layer.weight".toList then .lmHead
  else if key = "d2t".toList then .d2t
  else match parseLayerCheckpointKey key with
    | some (index, layerKey) => .layer index layerKey
    | none => .other

def HfName.ofKey (rawHfKey : List Char) : HfName := .ofBareKey (normalizeHfKey rawHfKey)

/-- The ways to spell the name of a tensor, up to wrappers. -/
inductive Spells : List Char → HfName → Prop
  | fc : Spells "fc.weight".toList .fc
  | norm : Spells "norm.weight".toList .norm
  | lmHead : Spells "lm_head.weight".toList .lmHead
  | eagleOutputLayer : Spells "eagle_output_layer.weight".toList .lmHead
  | d2t : Spells "d2t".toList .d2t
  | midlayer (p : LayerPart) :
      Spells ("midlayer.".toList ++ p.key.toList) (.layer 0 p.key.toList)
  | layers (index : ℕ) (p : LayerPart) :
      Spells ("layers.".toList ++ (Nat.toDigits 10 index ++ '.' :: p.key.toList))
        (.layer index p.key.toList)

theorem Spells.ne_other {key : List Char} {name : HfName} (h : Spells key name) :
    name ≠ .other := by
  cases h <;> exact nofun

/-- A key under any nesting of the wrappers. -/
inductive Nested : List Char → List Char → Prop
  | plain (key : List Char) : Nested key key
  | wrap {wrapped key : List Char} (wrapper : List Char) (h : wrapper ∈ wrapperPrefixes) :
      Nested wrapped key → Nested (wrapper ++ wrapped) key

def Bare (key : List Char) : Prop := ∀ w ∈ wrapperPrefixes, ¬ w.isPrefixOf key

instance (key : List Char) : Decidable (Bare key) :=
  inferInstanceAs (Decidable (∀ w ∈ wrapperPrefixes, ¬ w.isPrefixOf key))

theorem nested_drop {key bare w : List Char} (hbare : Bare bare) (h : Nested key bare)
    (hw : w ∈ wrapperPrefixes) (hpre : w.isPrefixOf key) : Nested (key.drop w.length) bare := by
  cases h with
  | plain => exact absurd hpre (hbare w hw)
  | @wrap wrapped _ w' hw' h =>
    -- no two wrappers start with the same letter
    have hsame : w = w' := by
      obtain ⟨t, ht⟩ := List.isPrefixOf_iff_prefix.mp hpre
      simp only [wrapperPrefixes, List.mem_cons, List.not_mem_nil, or_false] at hw hw'
      rcases hw with rfl | rfl | rfl <;> rcases hw' with rfl | rfl | rfl <;>
        first | rfl | exact absurd ht nofun
    rw [hsame, List.drop_left]
    exact h

theorem stripFold_nested {bare : List Char} (hbare : Bare bare) (wrappers : List (List Char))
    (hw : wrappers ⊆ wrapperPrefixes) (start : List Char × Bool) (h : Nested start.1 bare) :
    Nested (wrappers.foldl stripWrapper start).1 bare ∧
      ((wrappers.foldl stripWrapper start).2 = false →
        wrappers.foldl stripWrapper start = start ∧ ∀ w ∈ wrappers, ¬ w.isPrefixOf start.1) := by
  induction wrappers generalizing start with
  | nil => exact ⟨h, fun _ ↦ ⟨rfl, nofun⟩⟩
  | cons w wrappers ih =>
    obtain ⟨hmem, hrest⟩ := List.cons_subset.mp hw
    rw [List.foldl_cons]
    by_cases hpre : w.isPrefixOf start.1
    · rw [stripWrapper, if_pos hpre]
      obtain ⟨hnested, hunchanged⟩ := ih hrest (start.1.drop w.length, true)
        (nested_drop hbare h hmem hpre)
      refine ⟨hnested, fun hlast ↦ ?_⟩
      rw [(hunchanged hlast).1] at hlast
      exact absurd hlast nofun
    · rw [stripWrapper, if_neg hpre]
      obtain ⟨hnested, hunchanged⟩ := ih hrest start h
      refine ⟨hnested, fun hlast ↦ ?_⟩
      obtain ⟨hsame, hnone⟩ := hunchanged hlast
      exact ⟨hsame, List.forall_mem_cons.mpr ⟨hpre, hnone⟩⟩

theorem eq_of_nested_bare {key bare : List Char} (h : Nested key bare) (hkey : Bare key) :
    key = bare := by
  cases h with
  | plain => rfl
  | wrap w hw _ => exact absurd (List.isPrefixOf_iff_prefix.mpr (List.prefix_append ..)) (hkey w hw)

theorem normalizeHfKey_nested {key bare : List Char} (hbare : Bare bare) (h : Nested key bare) :
    normalizeHfKey key = bare := by
  induction hn : key.length using Nat.strong_induction_on generalizing key with
  | _ n ih =>
    obtain ⟨hnested, hunchanged⟩ :=
      stripFold_nested hbare wrapperPrefixes (List.Subset.refl _) (key, false) h
    rw [normalizeHfKey]
    by_cases hchanged : (stripPass key).2 = true
    · rw [if_pos hchanged]
      exact ih _ (hn ▸ stripPass_length hchanged) hnested rfl
    · obtain ⟨hsame, hnone⟩ := hunchanged (Bool.eq_false_iff.mpr hchanged)
      rw [if_neg hchanged]
      have hkey : (stripPass key).1 = key := congrArg Prod.fst hsame
      rw [hkey]
      exact eq_of_nested_bare h hnone

theorem bare_layers (rest : List Char) : Bare ("layers.".toList ++ rest) := by
  intro w hw
  simp only [wrapperPrefixes, List.mem_cons, List.not_mem_nil, or_false] at hw
  rcases hw with rfl | rfl | rfl <;> exact nofun

theorem bare_midlayer (rest : List Char) : Bare ("midlayer.".toList ++ rest) := by
  intro w hw
  simp only [wrapperPrefixes, List.mem_cons, List.not_mem_nil, or_false] at hw
  rcases hw with rfl | rfl | rfl <;> exact nofun

theorem bare_of_spells {key : List Char} {name : HfName} (h : Spells key name) : Bare key := by
  cases h with
  | fc | norm | lmHead | eagleOutputLayer | d2t => decide
  | midlayer p => exact bare_midlayer _
  | layers index p => exact bare_layers _

theorem parseLayerCheckpointKey_layers (index : ℕ) {layerKey : List Char} (h : layerKey ≠ []) :
    parseLayerCheckpointKey ("layers.".toList ++ (Nat.toDigits 10 index ++ '.' :: layerKey)) =
      some (index, layerKey) := by
  have hdigits : (Nat.toDigits 10 index ++ '.' :: layerKey).takeWhile Char.isDigit =
      Nat.toDigits 10 index := by
    have hall : ∀ c ∈ Nat.toDigits 10 index, c.isDigit = true :=
      fun c hc ↦ Nat.isDigit_of_mem_toDigits (by decide) (by decide) hc
    rw [List.takeWhile_append_of_pos hall, List.takeWhile_cons_of_neg (by decide), List.append_nil]
  have hne : Nat.toDigits 10 index ≠ [] := List.ne_nil_of_length_pos Nat.length_toDigits_pos
  obtain ⟨c, cs, rfl⟩ := List.exists_cons_of_ne_nil h
  have hmid : ¬ "midlayer.".toList.isPrefixOf
      ("layers.".toList ++ (Nat.toDigits 10 index ++ '.' :: c :: cs)) := nofun
  have hlayers : "layers.".toList.isPrefixOf
      ("layers.".toList ++ (Nat.toDigits 10 index ++ '.' :: c :: cs)) :=
    List.isPrefixOf_iff_prefix.mpr (List.prefix_append ..)
  rw [parseLayerCheckpointKey, if_neg hmid, if_pos hlayers, List.drop_left]
  dsimp only
  simp only [hdigits, List.drop_left, if_neg hne, Nat.ofDigitChars_ten_toDigits]

theorem ofBareKey_spells {key : List Char} {name : HfName} (h : Spells key name) :
    HfName.ofBareKey key = name := by
  cases h with
  | fc | norm | lmHead | eagleOutputLayer | d2t => decide
  | midlayer p => cases p <;> decide
  | layers index p =>
    have hkey : p.key.toList ≠ [] := by cases p <;> decide
    have hfc : "layers.".toList ++ (Nat.toDigits 10 index ++ '.' :: p.key.toList) ≠
      "fc.weight".toList := nofun
    have hnorm : "layers.".toList ++ (Nat.toDigits 10 index ++ '.' :: p.key.toList) ≠
      "norm.weight".toList := nofun
    have hhead : ¬ ("layers.".toList ++ (Nat.toDigits 10 index ++ '.' :: p.key.toList) =
        "lm_head.weight".toList ∨
      "layers.".toList ++ (Nat.toDigits 10 index ++ '.' :: p.key.toList) =
        "eagle_output_layer.weight".toList) := nofun
    have hd2t : "layers.".toList ++ (Nat.toDigits 10 index ++ '.' :: p.key.toList) ≠
      "d2t".toList := nofun
    rw [HfName.ofBareKey, if_neg hfc, if_neg hnorm, if_neg hhead, if_neg hd2t,
      parseLayerCheckpointKey_layers index hkey]

theorem HfName.ofKey_nested {raw bare : List Char} {name : HfName} (h : Nested raw bare)
    (hname : Spells bare name) : HfName.ofKey raw = name := by
  rw [HfName.ofKey, normalizeHfKey_nested (bare_of_spells hname) h, ofBareKey_spells hname]

end NemoRL.Models.Draft
