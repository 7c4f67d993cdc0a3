import Mathlib
import NemoRL.Models.Draft.EagleLoad

namespace NemoRL.Models.Draft

open Foundations Foundations.Blocks

variable {m : DraftModel} {α : Type} {draft : EagleDraft m α} {states : ℕ → StateDict α} {r : ℕ}

/-- What a rank computes with. -/
structure IsSharded (draft : EagleDraft m α) (r : ℕ) (state : StateDict α) : Prop where
  keys_eq : state.map Prod.fst = m.keys
  get_eq : ∀ name ∈ m.parameters, state.get name = some (draft.shard r name)

section Gather

theorem allGather_eq (hstates : ∀ r < m.tp, IsSharded draft r (states r)) {name : ParameterName}
    (hname : name ∈ m.parameters) {g : ℕ → Grid α}
    (hg : ∀ r < m.tp, draft.shard r name = .matrix (g r)) :
    allGatherTpShards ((List.range m.tp).map states) name = some ((List.range m.tp).map g) := by
  have hread : ∀ r ∈ List.range m.tp,
      ((states r).get name >>= Tensor.grid) = some (g r) := by
    intro r hr
    rw [(hstates r (List.mem_range.mp hr)).get_eq name hname, hg r (List.mem_range.mp hr)]
    rfl
  rw [allGatherTpShards, List.mapM_map]
  exact mapM_some hread

theorem gatherTpWeightIfNeeded_eq (hstates : ∀ r < m.tp, IsSharded draft r (states r))
    (hr : r < m.tp) {name : ParameterName} (hname : name ∈ m.parameters) {full : Grid α}
    {g : ℕ → Grid α} (hg : ∀ r < m.tp, draft.shard r name = .matrix (g r))
    (hone : m.tp = 1 → g 0 = full) {expectedShape : List ℕ}
    (hshape : (g r).shape = expectedShape → m.tp = 1) {axis : ℕ}
    (hcat : (if axis = 0 then Grid.vcat ((List.range m.tp).map g)
      else Grid.hcat ((List.range m.tp).map g)) = some full) :
    gatherTpWeightIfNeeded ((List.range m.tp).map states) r name expectedShape axis =
      some (.matrix full) := by
  have hlocal : requireStateTensor ((List.range m.tp).map states) r name =
      some (.matrix (g r)) := by
    rw [requireStateTensor_range states hr, (hstates r hr).get_eq name hname, hg r hr]
  have hsingle : m.tp = 1 → g r = full := by
    intro htp
    obtain rfl : r = 0 := by omega
    exact hone htp
  rw [gatherTpWeightIfNeeded, hlocal, Option.bind_eq_bind, Option.bind_some]
  by_cases hsame : (Tensor.matrix (g r)).shape = expectedShape
  · rw [if_pos hsame, hsingle (hshape hsame)]
  · rw [if_neg hsame, allGather_eq hstates hname hg, Option.bind_eq_bind, Option.bind_some,
      List.length_map, List.length_range]
    by_cases htp : m.tp = 1
    · rw [if_pos htp, hsingle htp]
    · rw [if_neg htp]
      split_ifs at hcat ⊢ with haxis
      · rw [hcat]
        rfl
      · rw [hcat]
        rfl

theorem gather_rows (hstates : ∀ r < m.tp, IsSharded draft r (states r)) (hr : r < m.tp)
    {name : ParameterName} (hname : name ∈ m.parameters) {full : Grid α} {c : ℕ} (hc : 0 < c)
    (hg : ∀ r < m.tp, draft.shard r name = .matrix (full.rowBlock c r))
    (hrows : full.rows.length = m.tp * c) {expectedShape : List ℕ}
    (hshape : expectedShape[0]? = some (m.tp * c)) :
    gatherTpWeightIfNeeded ((List.range m.tp).map states) r name expectedShape 0 =
      some (.matrix full) := by
  refine gatherTpWeightIfNeeded_eq hstates hr hname hg (fun htp ↦ ?_) (fun h ↦ ?_) ?_
  · exact Grid.rowBlock_self (by rw [hrows, htp, Nat.one_mul])
  · rw [← h, Grid.shape, Grid.rows_length_rowBlock hrows hr] at hshape
    have hsame : c = m.tp * c := Option.some.inj hshape
    exact (Nat.eq_of_mul_eq_mul_right hc (by rw [← hsame, Nat.one_mul]))
  · rw [if_pos rfl]
    exact Grid.vcat_rowBlock m.tp_pos hrows

theorem gather_cols (hstates : ∀ r < m.tp, IsSharded draft r (states r)) (hr : r < m.tp)
    {name : ParameterName} (hname : name ∈ m.parameters) {full : Grid α} {c : ℕ}
    (hg : ∀ r < m.tp, draft.shard r name = .matrix (full.colBlock c r))
    (hcols : full.cols = m.tp * c) {expectedShape : List ℕ}
    (hshape : expectedShape[1]? = some c → m.tp = 1) :
    gatherTpWeightIfNeeded ((List.range m.tp).map states) r name expectedShape 1 =
      some (.matrix full) := by
  refine gatherTpWeightIfNeeded_eq hstates hr hname hg (fun htp ↦ ?_) (fun h ↦ ?_) ?_
  · exact Grid.colBlock_self (by rw [hcols, htp, Nat.one_mul])
  · refine hshape ?_
    rw [← h, Grid.shape, Grid.cols_colBlock hcols hr]
    rfl
  · rw [if_neg Nat.one_ne_zero]
    exact Grid.hcat_colBlock m.tp_pos hcols

theorem gatherTpQkvWeight_eq (hstates : ∀ r < m.tp, IsSharded draft r (states r))
    {layer : EagleLayerLayout} (hlayer : layer ∈ m.layout.layers) :
    gatherTpQkvWeight ((List.range m.tp).map states) layer.qkvWeightKey m.config =
      some ((draft.layer layer.layerIndex).q, (draft.layer layer.layerIndex).k,
        (draft.layer layer.layerIndex).v) := by
  rw [← m.index_modelPrefix hlayer]
  set w := draft.layer layer.modelPrefix.index with hw
  have hg : ∀ r < m.tp, draft.shard r layer.qkvWeightKey =
      .matrix (w.qkv.rowBlock (m.config.groups / m.tp * m.groupRows) r) := by
    intro r hr
    rw [w.rowBlock_qkv_groups hr]
    rfl
  have hrows : w.qkv.rows.length = m.tp * (m.config.groups / m.tp * m.groupRows) := by
    rw [w.qkv_rows, ← Nat.mul_assoc, ← m.groups_eq]
  have hname : layer.qkvWeightKey ∈ m.parameters := m.mem_parameters_of_layer hlayer (.inl rfl)
  rw [gatherTpQkvWeight, allGather_eq hstates hname hg, Option.bind_eq_bind, Option.bind_some,
    Grid.vcat_rowBlock m.tp_pos hrows, Option.bind_eq_bind, Option.bind_some,
    w.deinterleaveQkv_eq]

theorem gatherTpGateUpWeight_eq (hstates : ∀ r < m.tp, IsSharded draft r (states r))
    {layer : EagleLayerLayout} (hlayer : layer ∈ m.layout.layers) :
    gatherTpGateUpWeight ((List.range m.tp).map states) layer.fc1WeightKey
        m.config.ffnHiddenSize =
      some ((draft.layer layer.layerIndex).gate, (draft.layer layer.layerIndex).up) := by
  rw [← m.index_modelPrefix hlayer]
  set w := draft.layer layer.modelPrefix.index with hw
  have hname : layer.fc1WeightKey ∈ m.parameters :=
    m.mem_parameters_of_layer hlayer (.inr (.inr (.inl rfl)))
  have hgather := allGather_eq hstates hname (g := w.gateUpShard) fun r hr ↦ rfl
  have hparts : ((List.range m.tp).map w.gateUpShard).mapM
      (fun shard ↦ splitInTwo shard (m.config.ffnHiddenSize / m.tp)) =
        some ((List.range m.tp).map fun r ↦
          (w.gate.rowBlock (m.config.ffnHiddenSize / m.tp) r,
            w.up.rowBlock (m.config.ffnHiddenSize / m.tp) r)) := by
    rw [List.mapM_map]
    exact mapM_some fun r hr ↦ w.splitInTwo_gateUpShard (List.mem_range.mp hr)
  have hdvd : ¬ m.config.ffnHiddenSize % m.tp ≠ 0 :=
    not_not_intro (Nat.mod_eq_zero_of_dvd m.tp_dvd_ffn)
  rw [gatherTpGateUpWeight, hgather, Option.bind_eq_bind, Option.bind_some]
  dsimp only
  rw [List.length_map, List.length_range, if_neg hdvd, hparts, Option.bind_eq_bind,
    Option.bind_some, List.map_map, List.map_map]
  have hgate := Grid.vcat_rowBlock m.tp_pos w.gate_rows
  have hup := Grid.vcat_rowBlock m.tp_pos w.up_rows
  have hfst : Prod.fst ∘ (fun r ↦ (w.gate.rowBlock (m.config.ffnHiddenSize / m.tp) r,
      w.up.rowBlock (m.config.ffnHiddenSize / m.tp) r)) =
        w.gate.rowBlock (m.config.ffnHiddenSize / m.tp) := rfl
  have hsnd : Prod.snd ∘ (fun r ↦ (w.gate.rowBlock (m.config.ffnHiddenSize / m.tp) r,
      w.up.rowBlock (m.config.ffnHiddenSize / m.tp) r)) =
        w.up.rowBlock (m.config.ffnHiddenSize / m.tp) := rfl
  rw [hfst, hsnd, hgate, hup]
  rfl

end Gather

section Export

/-- The exported `o_proj`: a shard as wide as `hidden_size` passes for the whole. -/
def exportedO (draft : EagleDraft m α) (index r : ℕ) : Grid α :=
  if m.config.numAttentionHeads * m.config.headDim = m.tp * m.config.hiddenSize then
    (draft.layer index).o.colBlock
      (m.config.numAttentionHeads * m.config.headDim / m.tp) r
  else (draft.layer index).o

theorem gatherO_eq (hstates : ∀ r < m.tp, IsSharded draft r (states r)) (hr : r < m.tp)
    {layer : EagleLayerLayout} (hlayer : layer ∈ m.layout.layers) :
    gatherTpWeightIfNeeded ((List.range m.tp).map states) r layer.projWeightKey
        [m.config.hiddenSize, m.config.hiddenSize] 1 =
      some (.matrix (exportedO draft layer.layerIndex r)) := by
  rw [← m.index_modelPrefix hlayer]
  have hname : layer.projWeightKey ∈ m.parameters :=
    m.mem_parameters_of_layer hlayer (.inr (.inl rfl))
  obtain ⟨hrows, hcols⟩ := eq_of_shape (draft.layer layer.modelPrefix.index).o_shape
  have hcols := hcols.trans m.heads_dim_eq
  by_cases hwide : m.config.numAttentionHeads * m.config.headDim = m.tp * m.config.hiddenSize
  · have hlocal : m.config.numAttentionHeads * m.config.headDim / m.tp = m.config.hiddenSize := by
      rw [hwide, Nat.mul_div_cancel_left _ m.tp_pos]
    have hshape : (Tensor.matrix ((draft.layer layer.modelPrefix.index).o.colBlock
        (m.config.numAttentionHeads * m.config.headDim / m.tp) r)).shape =
          [m.config.hiddenSize, m.config.hiddenSize] := by
      rw [Tensor.shape, Grid.shape, Grid.cols_colBlock hcols hr, hlocal]
      exact congrArg (fun rows ↦ [rows, m.config.hiddenSize]) ((List.length_map ..).trans hrows)
    rw [exportedO, if_pos hwide, gatherTpWeightIfNeeded, requireStateTensor_range states hr,
      (hstates r hr).get_eq _ hname, Option.bind_eq_bind, Option.bind_some]
    exact if_pos hshape
  · rw [exportedO, if_neg hwide]
    refine gather_cols hstates hr hname (fun r hr ↦ rfl) hcols fun h ↦ absurd ?_ hwide
    rw [m.heads_dim_eq]
    exact congrArg (m.tp * ·) (Option.some.inj h).symm

def exportedTensor (draft : EagleDraft m α) (index r : ℕ) : LayerPart → Tensor α
  | .oProj => .matrix (exportedO draft index r)
  | part => (draft.layer index).tensor part

theorem optionalItem_eq {key : Option ParameterName} {value : Tensor α} {ranks : RankStates α}
    (h : ∀ name, key = some name → requireStateTensor ranks r name = some value)
    (hfKey : List Char) :
    optionalItem ranks r key hfKey = some (key.toList.map fun _ ↦ (hfKey, value)) := by
  cases key with
  | none => rfl
  | some name =>
    rw [optionalItem, h name rfl]
    rfl

theorem exportLayerWeightsToHf_eq (hstates : ∀ r < m.tp, IsSharded draft r (states r))
    (hr : r < m.tp) {layer : EagleLayerLayout} (hlayer : layer ∈ m.layout.layers) :
    exportLayerWeightsToHf ((List.range m.tp).map states) r layer m.config =
      some ((exportOrder.filter (layer.holds .separate)).map fun part ↦
        (layer.checkpointPrefix ++ '.' :: part.key.toList,
          exportedTensor draft layer.layerIndex r part)) := by
  have hnorm : ∀ (key : Option ParameterName) (entries : List α) (hfKey : List Char),
      (∀ name, key = some name → name ∈ m.parameters ∧ draft.shard r name = .vector entries) →
      optionalItem ((List.range m.tp).map states) r key hfKey =
        some (key.toList.map fun _ ↦ (hfKey, Tensor.vector entries)) := by
    intro key entries hfKey h
    refine optionalItem_eq (fun name hname ↦ ?_) hfKey
    rw [requireStateTensor_range states hr, (hstates r hr).get_eq name (h name hname).1,
      (h name hname).2]
  have hhidden := hnorm layer.hiddenNormKey _ (layer.checkpointPrefix ++
    '.' :: LayerPart.hiddenNorm.key.toList) fun name h ↦
      ⟨m.mem_parameters_of_layer hlayer (.inr (.inr (.inr (.inr (.inl h))))),
        ((m.norm_shards hlayer draft r).1 h).2⟩
  have hinput := hnorm layer.inputLayernormKey _ (layer.checkpointPrefix ++
    '.' :: LayerPart.inputLayernorm.key.toList) fun name h ↦
      ⟨m.mem_parameters_of_layer hlayer (.inr (.inr (.inr (.inr (.inr (.inl h)))))),
        ((m.norm_shards hlayer draft r).2.1 h).2⟩
  have hpost := hnorm layer.postAttentionLayernormKey _ (layer.checkpointPrefix ++
    '.' :: LayerPart.postAttentionLayernorm.key.toList) fun name h ↦
      ⟨m.mem_parameters_of_layer hlayer (.inr (.inr (.inr (.inr (.inr (.inr h)))))),
        ((m.norm_shards hlayer draft r).2.2 h).2⟩
  have hdown : gatherTpWeightIfNeeded ((List.range m.tp).map states) r layer.fc2WeightKey
      [m.config.hiddenSize, m.config.ffnHiddenSize] 1 =
        some (.matrix (draft.layer layer.layerIndex).down) := by
    rw [← m.index_modelPrefix hlayer]
    have hcols := (eq_of_shape (draft.layer layer.modelPrefix.index).down_shape).2.trans m.ffn_eq
    refine gather_cols hstates hr
      (m.mem_parameters_of_layer hlayer (.inr (.inr (.inr (.inl rfl))))) (fun r hr ↦ rfl) hcols
      fun h ↦ ?_
    have hsame : m.config.ffnHiddenSize = m.config.ffnHiddenSize / m.tp := Option.some.inj h
    by_contra htp
    have hlt := Nat.div_lt_self m.ffn_pos (show 1 < m.tp by have := m.tp_pos; omega)
    omega
  rw [exportLayerWeightsToHf]
  dsimp only
  rw [hhidden, hinput, hpost, hdown, gatherTpQkvWeight_eq hstates hlayer,
    gatherO_eq hstates hr hlayer, gatherTpGateUpWeight_eq hstates hlayer]
  cases h₁ : layer.hiddenNormKey <;> cases h₂ : layer.inputLayernormKey <;>
    cases h₃ : layer.postAttentionLayernormKey <;>
    simp [exportOrder, List.filter, EagleLayerLayout.holds, CheckpointFormat.separate, h₁, h₂, h₃,
      exportedTensor, LayerWeights.tensor]

end Export

end NemoRL.Models.Draft
