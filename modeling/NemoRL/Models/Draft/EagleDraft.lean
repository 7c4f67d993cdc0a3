import Mathlib
import NemoRL.Models.Draft.EagleState

namespace NemoRL.Models.Draft

open Foundations Foundations.Blocks

def LayerPrefix.index : LayerPrefix → ℕ
  | decoderLayer index => index
  | layer => 0

/-- A draft model on a tensor-parallel group: its configuration, the keys of its
state dict and the widths that the configuration leaves open. -/
structure DraftModel where
  config : TransformerConfig
  tp : ℕ
  keys : List ParameterName
  layout : EagleModelLayout
  fcWidth : ℕ
  qkvWidth : ℕ → ℕ
  detect_eq : EagleModelLayout.detect keys = some layout
  nodup_keys : keys.Nodup
  fc_mem : .fc ∈ keys
  layer_mem : ∀ layer ∈ layout.layers,
    layer.projWeightKey ∈ keys ∧ layer.fc1WeightKey ∈ keys ∧ layer.fc2WeightKey ∈ keys
  tp_pos : 0 < tp
  heads_pos : 0 < config.numAttentionHeads
  headDim_pos : 0 < config.headDim
  hidden_pos : 0 < config.hiddenSize
  ffn_pos : 0 < config.ffnHiddenSize
  vocab_pos : 0 < config.draftVocabSize
  groups_dvd_heads : config.groups ∣ config.numAttentionHeads
  tp_dvd_groups : tp ∣ config.groups
  tp_dvd_ffn : tp ∣ config.ffnHiddenSize
  tp_dvd_hidden : tp ∣ config.hiddenSize
  tp_dvd_vocab : tp ∣ config.draftVocabSize

/-- Which layers of a checkpoint come fused. -/
structure CheckpointFormat where
  fusedQkv : ℕ → Bool
  fusedGateUp : ℕ → Bool

def CheckpointFormat.separate : CheckpointFormat := ⟨fun _ ↦ false, fun _ ↦ false⟩

def EagleLayerLayout.holds (layer : EagleLayerLayout) (format : CheckpointFormat) :
    LayerPart → Bool
  | .qkvProj => format.fusedQkv layer.layerIndex
  | .qProj | .kProj | .vProj => !format.fusedQkv layer.layerIndex
  | .gateUpProj => format.fusedGateUp layer.layerIndex
  | .gateProj | .upProj => !format.fusedGateUp layer.layerIndex
  | .oProj | .downProj => true
  | .hiddenNorm => layer.hiddenNormKey.isSome
  | .inputLayernorm => layer.inputLayernormKey.isSome
  | .postAttentionLayernorm => layer.postAttentionLayernormKey.isSome

def exportOrder : List LayerPart :=
  [.hiddenNorm, .inputLayernorm, .qProj, .kProj, .vProj, .oProj, .postAttentionLayernorm,
    .gateProj, .upProj, .downProj]

namespace DraftModel

variable (m : DraftModel)

def groupRows : ℕ := (m.config.headsPerGroup + 2) * m.config.headDim

def parameters : List ParameterName :=
  .fc :: m.layout.finalNormKey.toList ++ m.layout.lmHeadKey.toList ++
    (if .d2t ∈ m.keys then [.d2t] else []) ++
    m.layout.layers.flatMap fun layer ↦
      [layer.qkvWeightKey, layer.projWeightKey, layer.fc1WeightKey, layer.fc2WeightKey] ++
        layer.hiddenNormKey.toList ++ layer.inputLayernormKey.toList ++
        layer.postAttentionLayernormKey.toList

def localShape : ParameterName → List ℕ
  | .fc => [m.config.hiddenSize / m.tp, m.fcWidth]
  | .d2t => [m.config.draftVocabSize]
  | .eagleOutputLayer | .lmHead => [m.config.draftVocabSize / m.tp, m.config.hiddenSize]
  | .ofLayer modelPrefix .linearQkv =>
    [m.config.groups / m.tp * m.groupRows, m.qkvWidth modelPrefix.index]
  | .ofLayer _ .linearProj =>
    [m.config.hiddenSize, m.config.numAttentionHeads * m.config.headDim / m.tp]
  | .ofLayer _ .linearFc1 => [2 * (m.config.ffnHiddenSize / m.tp), m.config.hiddenSize]
  | .ofLayer _ .linearFc2 => [m.config.hiddenSize, m.config.ffnHiddenSize / m.tp]
  | _ => [m.config.hiddenSize]

structure IsState {α : Type} (state : StateDict α) : Prop where
  keys_eq : state.map Prod.fst = m.keys
  shape_eq : ∀ name ∈ m.parameters, ∃ t, state.get name = some t ∧ t.shape = m.localShape name

/-- The tensors that a checkpoint has of the model, those of a layer in a given order. -/
def names (order : List LayerPart) (format : CheckpointFormat) : List HfName :=
  .fc :: (m.layout.layers.flatMap fun layer ↦ (order.filter (layer.holds format)).map
      fun part ↦ .layer layer.layerIndex part.key.toList) ++
    (m.layout.finalNormKey.toList.map fun _ ↦ .norm) ++
    (m.layout.lmHeadKey.toList.map fun _ ↦ .lmHead) ++ if .d2t ∈ m.keys then [.d2t] else []

def exportNames : List HfName := m.names exportOrder .separate

end DraftModel

structure LayerWeights (m : DraftModel) (index : ℕ) (α : Type) where
  q : Grid α
  k : Grid α
  v : Grid α
  o : Grid α
  gate : Grid α
  up : Grid α
  down : Grid α
  hiddenNorm : List α
  inputLayernorm : List α
  postAttentionLayernorm : List α
  q_shape : q.shape = [m.config.numAttentionHeads * m.config.headDim, m.qkvWidth index]
  k_shape : k.shape = [m.config.groups * m.config.headDim, m.qkvWidth index]
  v_shape : v.shape = [m.config.groups * m.config.headDim, m.qkvWidth index]
  o_shape : o.shape =
    [m.config.hiddenSize, m.config.numAttentionHeads * m.config.headDim]
  gate_shape : gate.shape = [m.config.ffnHiddenSize, m.config.hiddenSize]
  up_shape : up.shape = [m.config.ffnHiddenSize, m.config.hiddenSize]
  down_shape : down.shape = [m.config.hiddenSize, m.config.ffnHiddenSize]
  hiddenNorm_length : hiddenNorm.length = m.config.hiddenSize
  inputLayernorm_length : inputLayernorm.length = m.config.hiddenSize
  postAttentionLayernorm_length : postAttentionLayernorm.length = m.config.hiddenSize

/-- The full tensors of a draft, the layers by their indices. -/
structure EagleDraft (m : DraftModel) (α : Type) where
  fc : Grid α
  lmHead : Grid α
  norm : List α
  d2t : List α
  layer : ∀ index, LayerWeights m index α
  fc_shape : fc.shape = [m.config.hiddenSize, m.fcWidth]
  lmHead_shape : lmHead.shape = [m.config.draftVocabSize, m.config.hiddenSize]
  norm_length : norm.length = m.config.hiddenSize
  d2t_length : d2t.length = m.config.draftVocabSize

variable {m : DraftModel} {α : Type}

theorem eq_of_shape {g : Grid α} {rows cols : ℕ} (h : g.shape = [rows, cols]) :
    g.rows.length = rows ∧ g.cols = cols := by
  rw [Grid.shape, List.cons.injEq, List.cons.injEq] at h
  exact ⟨h.1, h.2.1⟩

namespace LayerWeights

variable {index : ℕ} (w : LayerWeights m index α)

def group (g : ℕ) : Grid α :=
  Grid.catRows (m.qkvWidth index)
    [w.q.rowBlock (m.config.headsPerGroup * m.config.headDim) g, w.k.rowBlock m.config.headDim g,
      w.v.rowBlock m.config.headDim g] (by
    simp only [List.forall_mem_cons, List.not_mem_nil, false_imp_iff, implies_true, and_true]
    exact ⟨(eq_of_shape w.q_shape).2, (eq_of_shape w.k_shape).2, (eq_of_shape w.v_shape).2⟩)

def qkvOf (groups : List ℕ) : Grid α :=
  Grid.catRows (m.qkvWidth index) (groups.map w.group) (by
    intro b hb
    obtain ⟨g, -, rfl⟩ := List.mem_map.mp hb
    rfl)

def qkv : Grid α := w.qkvOf (List.range m.config.groups)

def stacked (gate up : Grid α) (hgate : gate.cols = m.config.hiddenSize)
    (hup : up.cols = m.config.hiddenSize) : Grid α :=
  Grid.catRows m.config.hiddenSize [gate, up] (by
    simp only [List.forall_mem_cons, List.not_mem_nil, false_imp_iff, implies_true, and_true]
    exact ⟨hgate, hup⟩)

def gateUp : Grid α :=
  stacked w.gate w.up (eq_of_shape w.gate_shape).2 (eq_of_shape w.up_shape).2

def gateUpShard (r : ℕ) : Grid α :=
  stacked (w.gate.rowBlock (m.config.ffnHiddenSize / m.tp) r)
    (w.up.rowBlock (m.config.ffnHiddenSize / m.tp) r)
    (eq_of_shape w.gate_shape).2 (eq_of_shape w.up_shape).2

def tensor : LayerPart → Tensor α
  | .qkvProj => .matrix w.qkv
  | .qProj => .matrix w.q
  | .kProj => .matrix w.k
  | .vProj => .matrix w.v
  | .oProj => .matrix w.o
  | .gateUpProj => .matrix w.gateUp
  | .gateProj => .matrix w.gate
  | .upProj => .matrix w.up
  | .downProj => .matrix w.down
  | .hiddenNorm => .vector w.hiddenNorm
  | .inputLayernorm => .vector w.inputLayernorm
  | .postAttentionLayernorm => .vector w.postAttentionLayernorm

def shard (r : ℕ) : LayerParameter → Tensor α
  | .linearQkv => .matrix (w.qkvOf
      ((List.range (m.config.groups / m.tp)).map (r * (m.config.groups / m.tp) + ·)))
  | .linearProj =>
    .matrix (w.o.colBlock (m.config.numAttentionHeads * m.config.headDim / m.tp) r)
  | .linearFc1 => .matrix (w.gateUpShard r)
  | .linearFc2 => .matrix (w.down.colBlock (m.config.ffnHiddenSize / m.tp) r)
  | .hiddenNorm | .hnorm | .preFcNormHidden => .vector w.hiddenNorm
  | .inputLayernorm | .qkvLayerNorm => .vector w.inputLayernorm
  | .preMlpLayernorm | .fc1LayerNorm => .vector w.postAttentionLayernorm

end LayerWeights

namespace EagleDraft

variable (draft : EagleDraft m α)

def named : HfName → Tensor α
  | .fc => .matrix draft.fc
  | .norm => .vector draft.norm
  | .lmHead => .matrix draft.lmHead
  | .d2t => .vector draft.d2t
  | .layer index layerKey =>
    match LayerPart.ofKey layerKey with
    | some part => (draft.layer index).tensor part
    | none => .vector []
  | .other => .vector []

def shard (r : ℕ) : ParameterName → Tensor α
  | .fc => .matrix (draft.fc.rowBlock (m.config.hiddenSize / m.tp) r)
  | .d2t => .vector draft.d2t
  | .finalLayernorm | .norm => .vector draft.norm
  | .eagleOutputLayer | .lmHead =>
    .matrix (draft.lmHead.rowBlock (m.config.draftVocabSize / m.tp) r)
  | .hiddenNorm | .hnorm | .preFcNormHidden | .enorm => .vector (draft.layer 0).hiddenNorm
  | .ofLayer modelPrefix parameter => (draft.layer modelPrefix.index).shard r parameter
  | .other _ => .vector []

/-- An entry of a checkpoint: a tensor of the draft, or one that the import skips. -/
inductive Entry : List Char × Tensor α → HfName → Prop
  | named {raw bare : List Char} {name : HfName} :
      Nested raw bare → Spells bare name → Entry (raw, draft.named name) name
  | skipped {raw : List Char} (tensor : Tensor α) :
      HfName.ofKey raw = .other → Entry (raw, tensor) .other

def Presents (format : CheckpointFormat) (hf : Dict (List Char) (Tensor α)) : Prop :=
  ∃ names, List.Forall₂ draft.Entry hf names ∧
    (names.filter (· ≠ .other)).Perm (m.names LayerPart.all format)

end EagleDraft

/-- Import on every rank and export from every rank give the draft back, over
shards that are the model's. -/
def RoundTrips (m : DraftModel) (format : CheckpointFormat) (α : Type) : Prop :=
  ∀ (draft : EagleDraft m α) (hf : Dict (List Char) (Tensor α)) (states : ℕ → StateDict α),
    draft.Presents format hf → (∀ r < m.tp, m.IsState (states r)) →
    ∃ ranks : RankStates α,
      (List.range m.tp).mapM (fun r ↦ loadHfWeightsToEagle hf (states r) r m.config) = some ranks ∧
      ∀ r < m.tp,
        (∀ name ∈ m.parameters, requireStateTensor ranks r name = some (draft.shard r name)) ∧
        (exportEagleWeightsToHf ranks r m.config).map
            (List.map fun item ↦ (HfName.ofKey item.1, item.2)) =
          some (m.exportNames.map fun name ↦ (name, draft.named name))

end NemoRL.Models.Draft
