import Mathlib
import NemoRL.Models.Draft.EagleShards

namespace NemoRL.Models.Draft

open Foundations Foundations.Blocks

variable {m : DraftModel} {α : Type}

theorem resolveOptionalKey_mem {keys candidates : List ParameterName} {name : ParameterName}
    (h : resolveOptionalKey keys candidates = some name) : name ∈ candidates ∧ name ∈ keys := by
  rw [resolveOptionalKey] at h
  exact ⟨List.mem_of_find?_eq_some h, of_decide_eq_true (List.find?_some h :)⟩

theorem nodup_filterMap_qkvLayerIndex {keys : List ParameterName} (h : keys.Nodup) :
    (keys.filterMap qkvLayerIndex).Nodup := by
  refine h.filterMap fun a b index ha hb ↦ ?_
  have hname : ∀ name : ParameterName, index ∈ qkvLayerIndex name →
      name = .ofLayer (.decoderLayer index) .linearQkv := by
    intro name hname
    unfold qkvLayerIndex at hname
    split at hname
    · rw [Option.mem_some] at hname
      rw [hname]
    · exact absurd hname nofun
  rw [hname a ha, hname b hb]

theorem layerPrefixes_spec {keys : List ParameterName} {prefixes : List (ℕ × LayerPrefix)}
    (hkeys : keys.Nodup) (h : layerPrefixes keys = some prefixes) :
    prefixes ≠ [] ∧ (prefixes.map Prod.fst).Nodup ∧
      ∀ layer ∈ prefixes, layer.2.index = layer.1 ∧ .ofLayer layer.2 .linearQkv ∈ keys := by
  have hperm := List.perm_insertionSort (· ≤ ·) (keys.filterMap qkvLayerIndex)
  rw [layerPrefixes] at h
  split_ifs at h with hindices hlayer
  · obtain rfl := Option.some.inj h
    refine ⟨fun hnil ↦ hindices (List.map_eq_nil_iff.mp hnil), ?_, ?_⟩
    · rw [List.map_map]
      exact (hperm.nodup_iff.mpr (nodup_filterMap_qkvLayerIndex hkeys)).map fun _ _ h ↦ h
    · intro layer hlayer
      obtain ⟨index, hindex, rfl⟩ := List.mem_map.mp hlayer
      obtain ⟨name, hname, hsome⟩ := List.mem_filterMap.mp (hperm.mem_iff.mp hindex)
      refine ⟨rfl, ?_⟩
      unfold qkvLayerIndex at hsome
      split at hsome
      · rwa [← Option.some.inj hsome]
      · exact absurd hsome nofun
  · obtain rfl := Option.some.inj h
    refine ⟨List.cons_ne_nil _ _, List.nodup_singleton 0, ?_⟩
    intro layer hmem
    obtain rfl := List.mem_singleton.mp hmem
    exact ⟨rfl, hlayer⟩

namespace DraftModel

/-- The layers as `detect` lists them. -/
theorem exists_prefixes (m : DraftModel) : ∃ prefixes : List (ℕ × LayerPrefix),
    layerPrefixes m.keys = some prefixes ∧ m.layout = {
      layers := prefixes.map (detectLayer m.keys (decide (prefixes.map Prod.fst = [0])))
      finalNormKey := resolveOptionalKey m.keys [.finalLayernorm, .norm]
      lmHeadKey := resolveOptionalKey m.keys [.eagleOutputLayer, .lmHead] } := by
  have h := m.detect_eq
  rw [EagleModelLayout.detect] at h
  obtain ⟨prefixes, hprefixes, h⟩ := Option.bind_eq_some_iff.mp h
  exact ⟨prefixes, hprefixes, (Option.some.inj h).symm⟩

theorem exists_layer_prefix {layer : EagleLayerLayout} (h : layer ∈ m.layout.layers) :
    ∃ useMidlayerAlias p, layer = detectLayer m.keys useMidlayerAlias p ∧ p.2.index = p.1 ∧
      .ofLayer p.2 .linearQkv ∈ m.keys ∧ (useMidlayerAlias = true → p.1 = 0) := by
  obtain ⟨prefixes, hprefixes, hlayout⟩ := m.exists_prefixes
  obtain ⟨-, -, hspec⟩ := layerPrefixes_spec m.nodup_keys hprefixes
  rw [hlayout] at h
  obtain ⟨p, hp, rfl⟩ := List.mem_map.mp h
  refine ⟨_, p, rfl, (hspec p hp).1, (hspec p hp).2, fun halias ↦ ?_⟩
  have hmem := List.mem_map_of_mem (f := Prod.fst) hp
  rw [of_decide_eq_true halias] at hmem
  exact List.mem_singleton.mp hmem

theorem layers_ne_nil (m : DraftModel) : m.layout.layers ≠ [] := by
  obtain ⟨prefixes, hprefixes, hlayout⟩ := m.exists_prefixes
  rw [hlayout]
  exact fun h ↦ (layerPrefixes_spec m.nodup_keys hprefixes).1 (List.map_eq_nil_iff.mp h)

theorem nodup_layerIndex (m : DraftModel) :
    (m.layout.layers.map EagleLayerLayout.layerIndex).Nodup := by
  obtain ⟨prefixes, hprefixes, hlayout⟩ := m.exists_prefixes
  rw [hlayout, List.map_map]
  exact (layerPrefixes_spec m.nodup_keys hprefixes).2.1

theorem layerByIndex_eq {layer : EagleLayerLayout} (h : layer ∈ m.layout.layers) :
    m.layout.layerByIndex layer.layerIndex = some layer := by
  have hfound : ∀ ls : List EagleLayerLayout, (ls.map EagleLayerLayout.layerIndex).Nodup →
      layer ∈ ls → ls.find? (·.layerIndex = layer.layerIndex) = some layer := by
    intro ls hnodup hmem
    induction ls with
    | nil => exact absurd hmem List.not_mem_nil
    | cons first ls ih =>
      obtain ⟨hfirst, hrest⟩ := List.nodup_cons.mp hnodup
      rcases List.mem_cons.mp hmem with rfl | hmem
      · exact List.find?_cons_of_pos (decide_eq_true rfl)
      · have hne : first.layerIndex ≠ layer.layerIndex :=
          fun h ↦ hfirst (h ▸ List.mem_map_of_mem hmem)
        rw [List.find?_cons_of_neg (by simpa using hne)]
        exact ih hrest hmem
  exact hfound _ m.nodup_layerIndex h

theorem index_modelPrefix {layer : EagleLayerLayout} (h : layer ∈ m.layout.layers) :
    layer.modelPrefix.index = layer.layerIndex := by
  obtain ⟨_, p, rfl, hindex, -⟩ := exists_layer_prefix h
  exact hindex

theorem qkv_mem {layer : EagleLayerLayout} (h : layer ∈ m.layout.layers) :
    layer.qkvWeightKey ∈ m.keys := by
  obtain ⟨_, p, rfl, -, hmem, -⟩ := exists_layer_prefix h
  exact hmem

theorem finalNormKey_mem {name : ParameterName} (h : m.layout.finalNormKey = some name) :
    (name = .finalLayernorm ∨ name = .norm) ∧ name ∈ m.keys := by
  obtain ⟨prefixes, -, hlayout⟩ := m.exists_prefixes
  rw [hlayout] at h
  obtain ⟨hcandidate, hmem⟩ := resolveOptionalKey_mem h
  simp only [List.mem_cons, List.not_mem_nil, or_false] at hcandidate
  exact ⟨hcandidate, hmem⟩

theorem lmHeadKey_mem {name : ParameterName} (h : m.layout.lmHeadKey = some name) :
    (name = .eagleOutputLayer ∨ name = .lmHead) ∧ name ∈ m.keys := by
  obtain ⟨prefixes, -, hlayout⟩ := m.exists_prefixes
  rw [hlayout] at h
  obtain ⟨hcandidate, hmem⟩ := resolveOptionalKey_mem h
  simp only [List.mem_cons, List.not_mem_nil, or_false] at hcandidate
  exact ⟨hcandidate, hmem⟩

/-- The keys of a layer's norms hold that layer's norms. -/
theorem norm_shards {layer : EagleLayerLayout} (h : layer ∈ m.layout.layers)
    (draft : EagleDraft m α) (r : ℕ) {name : ParameterName} :
    (layer.hiddenNormKey = some name → name ∈ m.keys ∧
      draft.shard r name = .vector (draft.layer layer.layerIndex).hiddenNorm) ∧
    (layer.inputLayernormKey = some name → name ∈ m.keys ∧
      draft.shard r name = .vector (draft.layer layer.layerIndex).inputLayernorm) ∧
    (layer.postAttentionLayernormKey = some name → name ∈ m.keys ∧
      draft.shard r name = .vector (draft.layer layer.layerIndex).postAttentionLayernorm) := by
  obtain ⟨useMidlayerAlias, p, rfl, hindex, -⟩ := exists_layer_prefix h
  refine ⟨fun hkey ↦ ?_, fun hkey ↦ ?_, fun hkey ↦ ?_⟩
  · obtain ⟨hcandidate, hmem⟩ := resolveOptionalKey_mem hkey
    refine ⟨hmem, ?_⟩
    simp only [List.mem_append, List.mem_cons, List.not_mem_nil, or_false] at hcandidate
    rcases hcandidate with (rfl | rfl | rfl) | hglobal
    · exact congrArg (fun i ↦ Tensor.vector (draft.layer i).hiddenNorm) hindex
    · exact congrArg (fun i ↦ Tensor.vector (draft.layer i).hiddenNorm) hindex
    · exact congrArg (fun i ↦ Tensor.vector (draft.layer i).hiddenNorm) hindex
    · split_ifs at hglobal with hzero
      · obtain ⟨hcandidate, -⟩ := resolveOptionalKey_mem (Option.mem_toList.mp hglobal)
        simp only [List.mem_cons, List.not_mem_nil, or_false] at hcandidate
        have hlayer : (detectLayer m.keys useMidlayerAlias p).layerIndex = 0 := hzero
        rw [hlayer]
        rcases hcandidate with rfl | rfl | rfl | rfl <;> rfl
      · exact absurd hglobal List.not_mem_nil
  · obtain ⟨hcandidate, hmem⟩ := resolveOptionalKey_mem hkey
    simp only [List.mem_cons, List.not_mem_nil, or_false] at hcandidate
    rcases hcandidate with rfl | rfl
    · exact ⟨hmem, congrArg (fun i ↦ Tensor.vector (draft.layer i).inputLayernorm) hindex⟩
    · exact ⟨hmem, congrArg (fun i ↦ Tensor.vector (draft.layer i).inputLayernorm) hindex⟩
  · obtain ⟨hcandidate, hmem⟩ := resolveOptionalKey_mem hkey
    simp only [List.mem_cons, List.not_mem_nil, or_false] at hcandidate
    rcases hcandidate with rfl | rfl
    · exact ⟨hmem, congrArg (fun i ↦ Tensor.vector (draft.layer i).postAttentionLayernorm) hindex⟩
    · exact ⟨hmem, congrArg (fun i ↦ Tensor.vector (draft.layer i).postAttentionLayernorm) hindex⟩

theorem localShape_norm {layer : EagleLayerLayout} (h : layer ∈ m.layout.layers)
    {name : ParameterName} (hkey : layer.hiddenNormKey = some name ∨
      layer.inputLayernormKey = some name ∨ layer.postAttentionLayernormKey = some name) :
    m.localShape name = [m.config.hiddenSize] := by
  obtain ⟨useMidlayerAlias, p, rfl, -⟩ := exists_layer_prefix h
  rcases hkey with hkey | hkey | hkey
  · obtain ⟨hcandidate, -⟩ := resolveOptionalKey_mem hkey
    simp only [List.mem_append, List.mem_cons, List.not_mem_nil, or_false] at hcandidate
    rcases hcandidate with (rfl | rfl | rfl) | hglobal
    · rfl
    · rfl
    · rfl
    · split_ifs at hglobal
      · obtain ⟨hcandidate, -⟩ := resolveOptionalKey_mem (Option.mem_toList.mp hglobal)
        simp only [List.mem_cons, List.not_mem_nil, or_false] at hcandidate
        rcases hcandidate with rfl | rfl | rfl | rfl <;> rfl
      · exact absurd hglobal List.not_mem_nil
  · obtain ⟨hcandidate, -⟩ := resolveOptionalKey_mem hkey
    simp only [List.mem_cons, List.not_mem_nil, or_false] at hcandidate
    rcases hcandidate with rfl | rfl <;> rfl
  · obtain ⟨hcandidate, -⟩ := resolveOptionalKey_mem hkey
    simp only [List.mem_cons, List.not_mem_nil, or_false] at hcandidate
    rcases hcandidate with rfl | rfl <;> rfl

theorem mem_parameters {name : ParameterName} (h : name ∈ m.parameters) :
    name = .fc ∨ m.layout.finalNormKey = some name ∨ m.layout.lmHeadKey = some name ∨
      (name = .d2t ∧ .d2t ∈ m.keys) ∨
      ∃ layer ∈ m.layout.layers, name = layer.qkvWeightKey ∨ name = layer.projWeightKey ∨
        name = layer.fc1WeightKey ∨ name = layer.fc2WeightKey ∨ layer.hiddenNormKey = some name ∨
        layer.inputLayernormKey = some name ∨ layer.postAttentionLayernormKey = some name := by
  simp only [parameters, List.mem_append, List.mem_cons, List.mem_flatMap, Option.mem_toList,
    List.not_mem_nil, or_false] at h
  rcases h with (((rfl | h) | h) | h) | ⟨layer, hlayer, h⟩
  · exact .inl rfl
  · exact .inr (.inl h)
  · exact .inr (.inr (.inl h))
  · split_ifs at h with hd2t
    · exact .inr (.inr (.inr (.inl ⟨List.mem_singleton.mp h, hd2t⟩)))
    · exact absurd h List.not_mem_nil
  · refine .inr (.inr (.inr (.inr ⟨layer, hlayer, ?_⟩)))
    tauto

theorem parameters_subset {name : ParameterName} (h : name ∈ m.parameters) : name ∈ m.keys := by
  rcases mem_parameters h with rfl | h | h | ⟨rfl, hd2t⟩ | ⟨layer, hlayer, h⟩
  · exact m.fc_mem
  · exact (finalNormKey_mem h).2
  · exact (lmHeadKey_mem h).2
  · exact hd2t
  · obtain ⟨hproj, hfc1, hfc2⟩ := m.layer_mem layer hlayer
    rcases h with rfl | rfl | rfl | rfl | h | h | h
    · exact qkv_mem hlayer
    · exact hproj
    · exact hfc1
    · exact hfc2
    all_goals
      obtain ⟨useMidlayerAlias, p, rfl, -⟩ := exists_layer_prefix hlayer
      exact (resolveOptionalKey_mem h).2

theorem mem_parameters_of_layer {layer : EagleLayerLayout} (hlayer : layer ∈ m.layout.layers)
    {name : ParameterName}
    (h : name = layer.qkvWeightKey ∨ name = layer.projWeightKey ∨ name = layer.fc1WeightKey ∨
      name = layer.fc2WeightKey ∨ layer.hiddenNormKey = some name ∨
      layer.inputLayernormKey = some name ∨ layer.postAttentionLayernormKey = some name) :
    name ∈ m.parameters := by
  refine List.mem_append_right _ (List.mem_flatMap.mpr ⟨layer, hlayer, ?_⟩)
  simp only [List.mem_append, List.mem_cons, Option.mem_toList, List.not_mem_nil, or_false]
  tauto

theorem finalNormKey_mem_parameters {name : ParameterName}
    (h : m.layout.finalNormKey = some name) : name ∈ m.parameters := by
  simp [parameters, h]

theorem lmHeadKey_mem_parameters {name : ParameterName} (h : m.layout.lmHeadKey = some name) :
    name ∈ m.parameters := by
  simp [parameters, h]

theorem d2t_mem_parameters (h : .d2t ∈ m.keys) : .d2t ∈ m.parameters := by
  simp [parameters, h]

end DraftModel

end NemoRL.Models.Draft
