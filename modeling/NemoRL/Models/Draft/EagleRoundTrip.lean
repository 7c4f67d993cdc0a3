import Mathlib
import NemoRL.Models.Draft.EagleExport

namespace NemoRL.Models.Draft

open Foundations Foundations.Blocks

variable {m : DraftModel} {α : Type} {draft : EagleDraft m α} {states : ℕ → StateDict α} {r : ℕ}

theorem ofKey_checkpoint {layer : EagleLayerLayout} (hlayer : layer ∈ m.layout.layers)
    (part : LayerPart) :
    HfName.ofKey (layer.checkpointPrefix ++ '.' :: part.key.toList) =
      .layer layer.layerIndex part.key.toList := by
  obtain ⟨useMidlayerAlias, p, rfl, -, -, hzero⟩ := m.exists_layer_prefix hlayer
  cases useMidlayerAlias with
  | true =>
    have hindex : (detectLayer m.keys true p).layerIndex = 0 := hzero rfl
    rw [hindex]
    exact HfName.ofKey_nested (.plain _) (.midlayer part)
  | false =>
    have hkey : (detectLayer m.keys false p).checkpointPrefix ++ '.' :: part.key.toList =
        "layers.".toList ++ (Nat.toDigits 10 p.1 ++ '.' :: part.key.toList) :=
      List.append_assoc ..
    rw [hkey]
    exact HfName.ofKey_nested (.plain _) (.layers p.1 part)

def EagleDraft.exported (draft : EagleDraft m α) (r : ℕ) : HfName → Tensor α
  | .layer index layerKey =>
    match LayerPart.ofKey layerKey with
    | some part => exportedTensor draft index r part
    | none => .vector []
  | name => draft.named name

theorem exported_layer (index : ℕ) (part : LayerPart) :
    draft.exported r (.layer index part.key.toList) = exportedTensor draft index r part := by
  rw [EagleDraft.exported, LayerPart.ofKey_key]

def byName (items : List (List Char × Tensor α)) : List (HfName × Tensor α) :=
  items.map fun item ↦ (HfName.ofKey item.1, item.2)

variable (draft r) in
theorem byName_layers (layers : List EagleLayerLayout) (hlayers : layers ⊆ m.layout.layers) :
    byName (layers.flatMap fun layer ↦
        (exportOrder.filter (layer.holds .separate)).map fun part ↦
          (layer.checkpointPrefix ++ '.' :: part.key.toList,
            exportedTensor draft layer.layerIndex r part)) =
      (layers.flatMap fun layer ↦ (exportOrder.filter (layer.holds .separate)).map
        fun part ↦ HfName.layer layer.layerIndex part.key.toList).map
          fun name ↦ (name, draft.exported r name) := by
  rw [byName, List.map_flatMap, List.map_flatMap]
  refine List.flatMap_congr fun layer hlayer ↦ ?_
  rw [List.map_map, List.map_map]
  refine List.map_congr_left fun part _ ↦ ?_
  simp only [Function.comp_apply, ofKey_checkpoint (hlayers hlayer), exported_layer]

theorem ofKey_spells {raw : List Char} {name : HfName} (h : Spells raw name) :
    HfName.ofKey raw = name :=
  HfName.ofKey_nested (.plain _) h

theorem byName_item {raw : List Char} {name : HfName} (h : Spells raw name) (x : Tensor α) :
    byName [(raw, x)] = [(name, x)] := by
  rw [byName, List.map_singleton, ofKey_spells h]

variable (draft r) in
theorem byName_norm :
    byName (m.layout.finalNormKey.toList.map fun _ ↦
      ("norm.weight".toList, Tensor.vector draft.norm)) =
        (m.layout.finalNormKey.toList.map fun _ ↦ HfName.norm).map
          fun name ↦ (name, draft.exported r name) := by
  rw [byName, List.map_map, List.map_map]
  refine List.map_congr_left fun _ _ ↦ ?_
  rw [Function.comp_apply, ofKey_spells .norm]
  rfl

variable (draft r) in
/-- The parts of an export under the names that a checkpoint is compared by. -/
theorem byName_parts (norm head d2t : List (List Char × Tensor α)) :
    byName ((("fc.weight".toList, Tensor.matrix draft.fc) :: (m.layout.layers.flatMap fun layer ↦
        (exportOrder.filter (layer.holds .separate)).map fun part ↦
          (layer.checkpointPrefix ++ '.' :: part.key.toList,
            exportedTensor draft layer.layerIndex r part))) ++ norm ++ head ++ d2t) =
      (HfName.fc, Tensor.matrix draft.fc) :: (m.layout.layers.flatMap fun layer ↦
        (exportOrder.filter (layer.holds .separate)).map
          fun part ↦ HfName.layer layer.layerIndex part.key.toList).map
            (fun name ↦ (name, draft.exported r name)) ++
        byName norm ++ byName head ++ byName d2t := by
  rw [← byName_layers draft r m.layout.layers (List.Subset.refl _)]
  simp only [byName, List.map_append, List.map_cons, ofKey_spells .fc]

variable (draft r) in
theorem map_exportNames : (m.exportNames.map fun name ↦ (name, draft.exported r name)) =
    (HfName.fc, Tensor.matrix draft.fc) :: (m.layout.layers.flatMap fun layer ↦
      (exportOrder.filter (layer.holds .separate)).map
        fun part ↦ HfName.layer layer.layerIndex part.key.toList).map
          (fun name ↦ (name, draft.exported r name)) ++
      byName (m.layout.finalNormKey.toList.map fun _ ↦
        ("norm.weight".toList, Tensor.vector draft.norm)) ++
      (m.layout.lmHeadKey.toList.map fun _ ↦ (HfName.lmHead, Tensor.matrix draft.lmHead)) ++
      if .d2t ∈ m.keys then [(HfName.d2t, Tensor.vector draft.d2t)] else [] := by
  rw [byName_norm draft r, DraftModel.exportNames, DraftModel.names, List.map_append,
    List.map_append, List.map_append, List.map_cons]
  congr 1
  · congr 1
    rw [List.map_map]
    rfl
  · split_ifs <;> rfl

theorem exportEagleWeightsToHf_eq (hstates : ∀ r < m.tp, IsSharded draft r (states r))
    (hr : r < m.tp) :
    (exportEagleWeightsToHf ((List.range m.tp).map states) r m.config).map byName =
      some (m.exportNames.map fun name ↦ (name, draft.exported r name)) := by
  have hsource : ((List.range m.tp).map states)[r]? = some (states r) := by
    rw [List.getElem?_map, List.getElem?_range hr]
    rfl
  obtain ⟨hfcRows, -⟩ := eq_of_shape draft.fc_shape
  obtain ⟨hheadRows, -⟩ := eq_of_shape draft.lmHead_shape
  have hfc : gatherTpWeightIfNeeded ((List.range m.tp).map states) r .fc
      [m.config.hiddenSize, m.config.hiddenSize * m.config.numAuxHiddenStates] 0 =
        some (.matrix draft.fc) :=
    gather_rows hstates hr (List.mem_cons_self ..) (m.div_tp_pos m.hidden_pos m.tp_dvd_hidden)
      (fun r hr ↦ rfl) (hfcRows.trans m.hidden_eq) (congrArg some m.hidden_eq)
  have hlayers := mapM_some (l := m.layout.layers) fun layer hlayer ↦
    exportLayerWeightsToHf_eq hstates hr hlayer
  have hnorm : optionalItem ((List.range m.tp).map states) r m.layout.finalNormKey
      "norm.weight".toList =
        some (m.layout.finalNormKey.toList.map fun _ ↦
          ("norm.weight".toList, Tensor.vector draft.norm)) := by
    refine optionalItem_eq (fun name hname ↦ ?_) _
    rw [requireStateTensor_range states hr,
      (hstates r hr).get_eq name (m.finalNormKey_mem_parameters hname)]
    rcases (m.finalNormKey_mem hname).1 with rfl | rfl <;> rfl
  have hhead : ∀ name, m.layout.lmHeadKey = some name →
      gatherTpWeightIfNeeded ((List.range m.tp).map states) r name
        [m.config.draftVocabSize, m.config.hiddenSize] 0 = some (.matrix draft.lmHead) := by
    intro name hname
    refine gather_rows hstates hr (m.lmHeadKey_mem_parameters hname)
      (m.div_tp_pos m.vocab_pos m.tp_dvd_vocab) (fun r hr ↦ ?_) (hheadRows.trans m.vocab_eq)
      (congrArg some m.vocab_eq)
    rcases (m.lmHeadKey_mem hname).1 with rfl | rfl <;> rfl
  have hd2t : (states r).get .d2t =
      if .d2t ∈ m.keys then some (Tensor.vector draft.d2t) else none := by
    by_cases hmem : .d2t ∈ m.keys
    · rw [if_pos hmem, (hstates r hr).get_eq _ (m.d2t_mem_parameters hmem)]
      rfl
    · rw [if_neg hmem, ← Option.not_isSome_iff_eq_none, Dict.isSome_get, (hstates r hr).keys_eq]
      exact hmem
  rw [exportEagleWeightsToHf, hsource, Option.bind_eq_bind, Option.bind_some,
    (hstates r hr).keys_eq, m.detect_eq, Option.bind_eq_bind, Option.bind_some, hfc,
    Option.bind_eq_bind, Option.bind_some, hlayers, Option.bind_eq_bind, Option.bind_some, hnorm,
    Option.bind_eq_bind, Option.bind_some, hd2t]
  rw [map_exportNames draft r]
  cases hlm : m.layout.lmHeadKey with
  | none =>
    by_cases hmem : .d2t ∈ m.keys
    · rw [if_pos hmem, if_pos hmem]
      refine congrArg some ((byName_parts draft r _ _ _).trans ?_)
      rw [byName_item .d2t]
      rfl
    · rw [if_neg hmem, if_neg hmem]
      exact congrArg some (byName_parts draft r _ _ _)
  | some name =>
    dsimp only
    rw [hhead name hlm]
    by_cases hmem : .d2t ∈ m.keys
    · rw [if_pos hmem, if_pos hmem]
      refine congrArg some ((byName_parts draft r _ _ _).trans ?_)
      rw [byName_item .lmHead, byName_item .d2t]
      rfl
    · rw [if_neg hmem, if_neg hmem]
      refine congrArg some ((byName_parts draft r _ _ _).trans ?_)
      rw [byName_item .lmHead]
      rfl

theorem exported_eq_named (h : m.tp = 1 ∨
      m.config.numAttentionHeads * m.config.headDim ≠ m.tp * m.config.hiddenSize)
    (hr : r < m.tp) (name : HfName) : draft.exported r name = draft.named name := by
  have ho : ∀ index, exportedO draft index r = (draft.layer index).o := by
    intro index
    rw [exportedO]
    split_ifs with hwide
    · have htp : m.tp = 1 := h.resolve_right (not_not_intro hwide)
      obtain rfl : r = 0 := by omega
      refine Grid.colBlock_self ?_
      rw [(eq_of_shape (draft.layer index).o_shape).2, htp, Nat.div_one]
    · rfl
  cases name with
  | layer index layerKey =>
    rw [EagleDraft.exported, EagleDraft.named]
    cases LayerPart.ofKey layerKey with
    | none => rfl
    | some part =>
      cases part with
      | oProj => exact congrArg Tensor.matrix (ho index)
      | _ => rfl
  | _ => rfl

section Uniform

def uniformDraft (m : DraftModel) (a b : α) : EagleDraft m α where
  fc := .uniform m.config.hiddenSize m.fcWidth a
  lmHead := .uniform m.config.draftVocabSize m.config.hiddenSize a
  norm := List.replicate m.config.hiddenSize a
  d2t := List.replicate m.config.draftVocabSize a
  layer index := {
    q := .uniform (m.config.numAttentionHeads * m.config.headDim) (m.qkvWidth index) a
    k := .uniform (m.config.groups * m.config.headDim) (m.qkvWidth index) a
    v := .uniform (m.config.groups * m.config.headDim) (m.qkvWidth index) a
    o := .uniform m.config.hiddenSize (m.config.numAttentionHeads * m.config.headDim) a
    gate := .uniform m.config.ffnHiddenSize m.config.hiddenSize a
    up := .uniform m.config.ffnHiddenSize m.config.hiddenSize b
    down := .uniform m.config.hiddenSize m.config.ffnHiddenSize a
    hiddenNorm := List.replicate m.config.hiddenSize a
    inputLayernorm := List.replicate m.config.hiddenSize a
    postAttentionLayernorm := List.replicate m.config.hiddenSize a
    q_shape := Grid.shape_uniform ..
    k_shape := Grid.shape_uniform ..
    v_shape := Grid.shape_uniform ..
    o_shape := Grid.shape_uniform ..
    gate_shape := Grid.shape_uniform ..
    up_shape := Grid.shape_uniform ..
    down_shape := Grid.shape_uniform ..
    hiddenNorm_length := List.length_replicate ..
    inputLayernorm_length := List.length_replicate ..
    postAttentionLayernorm_length := List.length_replicate .. }
  fc_shape := Grid.shape_uniform ..
  lmHead_shape := Grid.shape_uniform ..
  norm_length := List.length_replicate ..
  d2t_length := List.length_replicate ..

def HfName.spelling : HfName → List Char
  | fc => "fc.weight".toList
  | norm => "norm.weight".toList
  | lmHead => "lm_head.weight".toList
  | d2t => "d2t".toList
  | layer index layerKey => "layers.".toList ++ (Nat.toDigits 10 index ++ '.' :: layerKey)
  | other => []

def checkpointOf (draft : EagleDraft m α) (format : CheckpointFormat) :
    Dict (List Char) (Tensor α) :=
  (m.names LayerPart.all format).map fun name ↦ (name.spelling, draft.named name)

theorem presents_checkpointOf (draft : EagleDraft m α) (format : CheckpointFormat) :
    draft.Presents format (checkpointOf draft format) := by
  have hspells : ∀ name ∈ m.names LayerPart.all format, Spells name.spelling name := by
    intro name hname
    rcases m.mem_names hname with rfl | ⟨rfl, -⟩ | ⟨rfl, -⟩ | ⟨rfl, -⟩ | ⟨_, -, part, -, -, rfl⟩
    exacts [.fc, .norm, .lmHead, .d2t, .layers _ part]
  refine ⟨m.names LayerPart.all format, ?_, ?_⟩
  · rw [checkpointOf, List.forall₂_map_left_iff, List.forall₂_same]
    exact fun name hname ↦ .named (.plain _) (hspells name hname)
  · rw [List.filter_eq_self.mpr fun name hname ↦ ?_]
    exact decide_eq_true (hspells name hname).ne_other

def Tensor.uniform (a : α) : List ℕ → Tensor α
  | [rows, cols] => matrix (.uniform rows cols a)
  | shape => vector (List.replicate (shape.headD 0) a)

def uniformState (m : DraftModel) (a : α) : StateDict α :=
  m.keys.map fun name ↦ (name, Tensor.uniform a (m.localShape name))

theorem shape_uniform_localShape (m : DraftModel) (a : α) (name : ParameterName) :
    (Tensor.uniform a (m.localShape name)).shape = m.localShape name := by
  unfold DraftModel.localShape
  split <;> simp [Tensor.uniform, Tensor.shape, Grid.shape_uniform]

theorem isState_uniformState (m : DraftModel) (a : α) : m.IsState (uniformState m a) := by
  have hkeys : (uniformState m a).map Prod.fst = m.keys := by
    rw [uniformState, List.map_map]
    exact List.map_id _
  refine ⟨hkeys, fun name hname ↦ ⟨_, ?_, shape_uniform_localShape m a name⟩⟩
  refine Dict.get_of_forall (f := fun name ↦ Tensor.uniform a (m.localShape name)) ?_ ?_
  · intro item hitem
    obtain ⟨name, -, rfl⟩ := List.mem_map.mp hitem
    rfl
  · rw [hkeys]
    exact m.parameters_subset hname

end Uniform

section RoundTrip

variable {format : CheckpointFormat}

theorem roundTrips_of (hfused : m.tp = 1 ∨
      ∀ layer ∈ m.layout.layers, format.fusedGateUp layer.layerIndex = false)
    (hwide : m.tp = 1 ∨
      m.config.numAttentionHeads * m.config.headDim ≠ m.tp * m.config.hiddenSize) :
    RoundTrips m format α := by
  intro draft hf states hpresents hstates
  obtain ⟨loaded, hload, hloaded⟩ := mapM_load hpresents hstates
  have hsharded : ∀ r < m.tp, IsSharded draft r (loaded r) := fun r hr ↦
    ⟨(hloaded r hr).keys_eq, fun name hname ↦
      ((hloaded r hr).get_eq name hname).trans (congrArg some (loaded_eq_shard hfused hr hname))⟩
  refine ⟨_, hload, fun r hr ↦ ⟨fun name hname ↦ ?_, ?_⟩⟩
  · rw [requireStateTensor_range loaded hr]
    exact (hsharded r hr).get_eq name hname
  · refine (exportEagleWeightsToHf_eq hsharded hr).trans (congrArg some ?_)
    exact List.map_congr_left fun name _ ↦ by rw [exported_eq_named hwide hr]

/-- Over several ranks a fused `[gate; up]` gives the first rank rows of gate only. -/
theorem not_roundTrips_of_fused [Nontrivial α] (htp : 1 < m.tp) {layer : EagleLayerLayout}
    (hlayer : layer ∈ m.layout.layers) (hfused : format.fusedGateUp layer.layerIndex = true) :
    ¬ RoundTrips m format α := by
  intro h
  obtain ⟨a, b, hab⟩ := exists_pair_ne α
  set draft := uniformDraft m a b with hdraft
  have hpresents := presents_checkpointOf draft format
  obtain ⟨ranks, hranks, hall⟩ := h draft _ (fun _ ↦ uniformState m a) hpresents
    fun r _ ↦ isState_uniformState m a
  have hstates : ∀ r < m.tp, m.IsState ((fun _ ↦ uniformState m a) r) :=
    fun r _ ↦ isState_uniformState m a
  obtain ⟨loaded, hload, hloaded⟩ := mapM_load hpresents hstates
  obtain rfl := Option.some.inj (hranks.symm.trans hload)
  have hname : layer.fc1WeightKey ∈ m.parameters :=
    m.mem_parameters_of_layer hlayer (.inr (.inr (.inl rfl)))
  have hshard := (hall 0 m.tp_pos).1 _ hname
  rw [requireStateTensor_range loaded m.tp_pos, (hloaded 0 m.tp_pos).get_eq _ hname] at hshard
  have hffn := m.div_tp_pos m.ffn_pos m.tp_dvd_ffn
  set c := m.config.ffnHiddenSize / m.tp with hc
  set w := draft.layer layer.modelPrefix.index with hw
  have hleft : draft.loaded format 0 layer.fc1WeightKey =
      .matrix (w.gateUp.rowBlock (2 * c) 0) := by
    refine if_pos ?_
    rw [m.index_modelPrefix hlayer]
    exact hfused
  have hgrid : w.gateUp.rowBlock (2 * c) 0 = w.gateUpShard 0 :=
    Tensor.matrix.inj (hleft.symm.trans (Option.some.inj hshard))
  have hrows : (w.gateUp.rows.drop (0 * (2 * c))).take (2 * c) = (w.gateUpShard 0).rows := by
    rw [← hgrid]
    exact (block_eq ..).symm
  -- row `c` of the chunk is a row of gate, of the shard a row of up
  have hgateLen : c < w.gate.rows.length := by
    rw [w.gate_rows]
    exact Nat.lt_of_lt_of_le (by omega) (Nat.mul_le_mul_right c htp)
  have hentry := congrArg (fun rows ↦ rows[c]?) hrows
  have hsplit := Grid.rows_length_rowBlock w.gate_rows m.tp_pos
  rw [Nat.zero_mul, List.drop_zero, List.getElem?_take_of_lt (by omega), w.rows_gateUp,
    List.getElem?_append_left hgateLen, w.rows_gateUpShard,
    List.getElem?_append_right hsplit.le, hsplit, Nat.sub_self] at hentry
  have hup : (w.up.rowBlock c 0).rows[0]? =
      some (List.replicate m.config.hiddenSize b) := by
    have hlen : 0 < m.config.ffnHiddenSize := m.ffn_pos
    show (block c (List.replicate m.config.ffnHiddenSize _) 0)[0]? = _
    rw [getElem?_block hffn, Nat.zero_mul, List.getElem?_replicate, if_pos hlen]
  have hgate : w.gate.rows[c]? = some (List.replicate m.config.hiddenSize a) := by
    show (List.replicate m.config.ffnHiddenSize _)[c]? = _
    rw [List.getElem?_replicate, if_pos]
    rw [← (eq_of_shape w.gate_shape).1]
    exact hgateLen
  rw [hgate, hup, Option.some.injEq] at hentry
  exact hab ((List.replicate_right_inj (by have := m.hidden_pos; omega)).mp hentry)

theorem not_roundTrips_of_wide [Nonempty α] (htp : 1 < m.tp)
    (hwide : m.config.numAttentionHeads * m.config.headDim = m.tp * m.config.hiddenSize) :
    ¬ RoundTrips m format α := by
  intro h
  obtain ⟨a⟩ := ‹Nonempty α›
  set draft := uniformDraft m a a with hdraft
  have hpresents := presents_checkpointOf draft format
  obtain ⟨ranks, hranks, hall⟩ := h draft _ (fun _ ↦ uniformState m a) hpresents
    fun r _ ↦ isState_uniformState m a
  have hstates : ∀ r < m.tp, m.IsState ((fun _ ↦ uniformState m a) r) :=
    fun r _ ↦ isState_uniformState m a
  obtain ⟨loaded, hload, hloaded⟩ := mapM_load hpresents hstates
  obtain rfl := Option.some.inj (hranks.symm.trans hload)
  have hsharded : ∀ r < m.tp, IsSharded draft r (loaded r) := by
    refine fun r hr ↦ ⟨(hloaded r hr).keys_eq, fun name hname ↦ ?_⟩
    rw [← requireStateTensor_range loaded hr]
    exact (hall r hr).1 name hname
  have hexport := (exportEagleWeightsToHf_eq hsharded m.tp_pos).symm.trans (hall 0 m.tp_pos).2
  obtain ⟨layer, hlayer⟩ := List.exists_mem_of_ne_nil _ m.layers_ne_nil
  have hname : HfName.layer layer.layerIndex LayerPart.oProj.key.toList ∈ m.exportNames := by
    simp only [DraftModel.exportNames, DraftModel.names, List.mem_append, List.mem_cons,
      List.mem_flatMap, List.mem_map, List.mem_filter]
    exact .inl (.inl (.inl (.inr ⟨layer, hlayer, .oProj, ⟨by decide, rfl⟩, rfl⟩)))
  have hpair := List.map_inj_left.mp (Option.some.inj hexport) _ hname
  have htensor := (Prod.mk.inj hpair).2
  rw [exported_layer, EagleDraft.named, LayerPart.ofKey_key] at htensor
  have hgrid : exportedO draft layer.layerIndex 0 = (draft.layer layer.layerIndex).o :=
    Tensor.matrix.inj htensor
  rw [exportedO, if_pos hwide] at hgrid
  have hfull := (eq_of_shape (draft.layer layer.layerIndex).o_shape).2
  have hcols := congrArg Grid.cols hgrid
  rw [Grid.cols_colBlock (hfull.trans m.heads_dim_eq) m.tp_pos, hfull] at hcols
  have hpos := Nat.mul_pos m.heads_pos m.headDim_pos
  have hlt := Nat.div_lt_self hpos htp
  omega

/-- A draft of one layer on two ranks: four heads in two groups, and hidden size eight. -/
def twoRankDraft (headDim : ℕ) : DraftModel where
  config := {
    numAttentionHeads := 4
    numQueryGroups := some 2
    kvChannels := some (headDim + 1)
    hiddenSize := 8
    ffnHiddenSize := 4
    draftVocabSize := 4
    eagleAuxHiddenStateLayerIds := []
    useAuxHiddenState := true }
  tp := 2
  keys := [.fc, .ofLayer .layer .linearQkv, .ofLayer .layer .linearProj, .ofLayer .layer .linearFc1,
    .ofLayer .layer .linearFc2]
  layout := {
    layers := [{
      layerIndex := 0
      modelPrefix := .layer
      checkpointPrefix := "midlayer".toList
      hiddenNormKey := none
      inputLayernormKey := none
      postAttentionLayernormKey := none }]
    finalNormKey := none
    lmHeadKey := none }
  fcWidth := 24
  qkvWidth _ := 16
  detect_eq := rfl
  nodup_keys := by decide
  fc_mem := by decide
  layer_mem := by
    intro layer hlayer
    obtain rfl := List.mem_singleton.mp hlayer
    exact ⟨by decide, by decide, by decide⟩
  tp_pos := Nat.two_pos
  heads_pos := (by decide : 0 < 4)
  headDim_pos := headDim.succ_pos
  hidden_pos := (by decide : 0 < 8)
  ffn_pos := (by decide : 0 < 4)
  vocab_pos := (by decide : 0 < 4)
  groups_dvd_heads := (by decide : 2 ∣ 4)
  tp_dvd_groups := (by decide : 2 ∣ 2)
  tp_dvd_ffn := (by decide : 2 ∣ 4)
  tp_dvd_hidden := (by decide : 2 ∣ 8)
  tp_dvd_vocab := (by decide : 2 ∣ 4)

/-- With a head dimension of four the heads are twice as wide as `hidden_size`:
`o_proj` is lost. With one of two a fused `[gate; up]` is loaded permuted. -/
theorem twoRankDraft_not_roundTrips :
    ¬ RoundTrips (twoRankDraft 3) .separate ℚ ∧
      ¬ RoundTrips (twoRankDraft 1) ⟨fun _ ↦ false, fun _ ↦ true⟩ ℚ :=
  ⟨not_roundTrips_of_wide (by decide) (by decide),
    not_roundTrips_of_fused (by decide) (List.mem_singleton.mpr rfl) rfl⟩

/-- Import and export are inverse, over the model's shards, exactly on one rank,
or when no gate and up weights come fused and no shard of `o_proj` has the shape
that the export takes for the full one. -/
theorem roundTrips_iff [Nontrivial α] (m : DraftModel) (format : CheckpointFormat) :
    RoundTrips m format α ↔ m.tp = 1 ∨
      (∀ layer ∈ m.layout.layers, format.fusedGateUp layer.layerIndex = false) ∧
        m.config.numAttentionHeads * m.config.headDim ≠ m.tp * m.config.hiddenSize := by
  have htp := m.tp_pos
  constructor
  · intro h
    by_cases hone : m.tp = 1
    · exact .inl hone
    · refine .inr ⟨fun layer hlayer ↦ ?_, fun hwide ↦ ?_⟩
      · by_contra hfused
        exact not_roundTrips_of_fused (by omega) hlayer (Bool.not_eq_false _ ▸ hfused) h
      · exact not_roundTrips_of_wide (by omega) hwide h
  · rintro (hone | ⟨hfused, hwide⟩)
    · exact roundTrips_of (.inl hone) (.inl hone)
    · exact roundTrips_of (.inr hfused) (.inr hwide)

theorem twoRankDraft_roundTrips : RoundTrips (twoRankDraft 1) .separate ℚ :=
  (roundTrips_iff _ _).mpr (.inr ⟨fun _ _ ↦ rfl, by decide⟩)

end RoundTrip

end NemoRL.Models.Draft
