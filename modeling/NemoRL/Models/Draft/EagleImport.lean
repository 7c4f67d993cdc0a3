import Mathlib
import NemoRL.Models.Draft.EagleLayout

namespace NemoRL.Models.Draft

open Foundations Foundations.Blocks

variable {m : DraftModel} {α : Type}

abbrev Slot := ParameterName ⊕ (ℕ × PendingWeight)

def EagleLayerLayout.slot (layer : EagleLayerLayout) : LayerPart → Option Slot
  | .qkvProj => some (.inr (layer.layerIndex, .qkv))
  | .qProj => some (.inr (layer.layerIndex, .q))
  | .kProj => some (.inr (layer.layerIndex, .k))
  | .vProj => some (.inr (layer.layerIndex, .v))
  | .oProj => some (.inl layer.projWeightKey)
  | .gateUpProj => some (.inr (layer.layerIndex, .fc1))
  | .gateProj => some (.inr (layer.layerIndex, .gate))
  | .upProj => some (.inr (layer.layerIndex, .up))
  | .downProj => some (.inl layer.fc2WeightKey)
  | .hiddenNorm => layer.hiddenNormKey.map .inl
  | .inputLayernorm => layer.inputLayernormKey.map .inl
  | .postAttentionLayernorm => layer.postAttentionLayernormKey.map .inl

def DraftModel.slot (m : DraftModel) : HfName → Option Slot
  | .fc => some (.inl .fc)
  | .norm => m.layout.finalNormKey.map .inl
  | .lmHead => m.layout.lmHeadKey.map .inl
  | .d2t => if .d2t ∈ m.keys then some (.inl .d2t) else none
  | .layer index layerKey => do
    let layer ← m.layout.layerByIndex index
    let part ← LayerPart.ofKey layerKey
    layer.slot part
  | .other => none

namespace ImportState

def assign (st : ImportState α) : Option Slot → Tensor α → ImportState α
  | none, _ => st
  | some (.inl name), weight => st.setMapped name weight
  | some (.inr (index, field)), weight => st.setPending index field weight

def Has (st : ImportState α) : Slot → Prop
  | .inl name => name ∈ st.mappedState.map Prod.fst
  | .inr field => field ∈ st.pendingWeights.map Prod.fst

theorem has_assign (st : ImportState α) (slot : Option Slot) (weight : Tensor α) (s : Slot) :
    (st.assign slot weight).Has s ↔ slot = some s ∨ st.Has s := by
  match slot, s with
  | none, _ => simp [assign]
  | some (.inl name), .inl name' =>
    refine Dict.mem_keys_set.trans (or_congr_left ?_)
    rw [Option.some.injEq, Sum.inl.injEq, eq_comm]
  | some (.inl name), .inr field => simp [assign, setMapped, Has]
  | some (.inr field), .inl name => simp [assign, setPending, Has]
  | some (.inr field), .inr field' =>
    refine Dict.mem_keys_set.trans (or_congr_left ?_)
    rw [Option.some.injEq, Sum.inr.injEq, eq_comm]

end ImportState

theorem assignOptional_eq (st : ImportState α) (modelKey : Option ParameterName)
    (weight : Tensor α) : st.assignOptional modelKey weight = st.assign (modelKey.map .inl) weight := by
  cases modelKey with
  | none => rfl
  | some name => rfl

theorem mapLayerHfWeight_eq (part : LayerPart) (weight : Tensor α) (layer : EagleLayerLayout)
    (st : ImportState α) :
    mapLayerHfWeight part.key.toList weight layer st = some (st.assign (layer.slot part) weight) := by
  rw [mapLayerHfWeight, LayerPart.ofKey_key]
  cases part with
  | hiddenNorm | inputLayernorm | postAttentionLayernorm =>
    exact congrArg some (assignOptional_eq ..)
  | _ => rfl

theorem mem_all (part : LayerPart) : part ∈ LayerPart.all := by
  cases part <;> decide

namespace DraftModel

/-- The tensors of a checkpoint: globals that the model exposes, and parts of its layers. -/
theorem mem_names {order : List LayerPart} {format : CheckpointFormat} {name : HfName}
    (h : name ∈ m.names order format) :
    name = .fc ∨ (name = .norm ∧ ∃ key, m.layout.finalNormKey = some key) ∨
      (name = .lmHead ∧ ∃ key, m.layout.lmHeadKey = some key) ∨ (name = .d2t ∧ .d2t ∈ m.keys) ∨
      ∃ layer ∈ m.layout.layers, ∃ part ∈ order, layer.holds format part = true ∧
        name = .layer layer.layerIndex part.key.toList := by
  simp only [names, List.mem_append, List.mem_cons, List.mem_flatMap, List.mem_map,
    List.mem_filter, Option.mem_toList] at h
  rcases h with (((rfl | ⟨layer, hlayer, part, ⟨hpart, hholds⟩, rfl⟩) | ⟨key, hkey, rfl⟩) |
      ⟨key, hkey, rfl⟩) | h
  · exact .inl rfl
  · exact .inr (.inr (.inr (.inr ⟨layer, hlayer, part, hpart, hholds, rfl⟩)))
  · exact .inr (.inl ⟨rfl, key, hkey⟩)
  · exact .inr (.inr (.inl ⟨rfl, key, hkey⟩))
  · split_ifs at h with hd2t
    · exact .inr (.inr (.inr (.inl ⟨List.mem_singleton.mp h, hd2t⟩)))
    · exact absurd h List.not_mem_nil

theorem layer_mem_names {format : CheckpointFormat} {layer : EagleLayerLayout}
    (hlayer : layer ∈ m.layout.layers) {part : LayerPart}
    (hholds : layer.holds format part = true) :
    .layer layer.layerIndex part.key.toList ∈ m.names LayerPart.all format := by
  simp only [names, List.mem_append, List.mem_cons, List.mem_flatMap, List.mem_map,
    List.mem_filter]
  exact .inl (.inl (.inl (.inr ⟨layer, hlayer, part, ⟨mem_all part, hholds⟩, rfl⟩)))

theorem slot_layer {layer : EagleLayerLayout} (hlayer : layer ∈ m.layout.layers)
    (part : LayerPart) :
    m.slot (.layer layer.layerIndex part.key.toList) = layer.slot part := by
  rw [slot, layerByIndex_eq hlayer, LayerPart.ofKey_key]
  rfl

end DraftModel

theorem mapHfWeight_eq {draft : EagleDraft m α} {format : CheckpointFormat}
    {modelState : StateDict α} (hstate : m.IsState modelState) {entry : List Char × Tensor α}
    {name : HfName} (hentry : draft.Entry entry name)
    (hname : name ≠ .other → name ∈ m.names LayerPart.all format) (st : ImportState α) :
    mapHfWeight modelState m.layout st entry = some (st.assign (m.slot name) entry.2) := by
  cases hentry with
  | skipped tensor hother =>
    rw [mapHfWeight, hother]
    rfl
  | named hnested hspells =>
    have hkey := HfName.ofKey_nested hnested hspells
    rw [mapHfWeight, hkey]
    rcases m.mem_names (hname hspells.ne_other) with rfl | ⟨rfl, key, hsome⟩ | ⟨rfl, key, hsome⟩ |
      ⟨rfl, hd2t⟩ | ⟨layer, hlayer, part, -, -, rfl⟩
    · rfl
    · dsimp only
      rw [DraftModel.slot, hsome]
      rfl
    · dsimp only
      rw [DraftModel.slot, hsome]
      rfl
    · have hget : (modelState.get .d2t).isSome := Dict.isSome_get.mpr (hstate.keys_eq ▸ hd2t)
      dsimp only
      rw [if_pos hget, DraftModel.slot, if_pos hd2t]
      rfl
    · dsimp only
      rw [m.layerByIndex_eq hlayer, m.slot_layer hlayer, Option.bind_eq_bind, Option.bind_some,
        mapLayerHfWeight_eq]

namespace PendingWeight

def part : PendingWeight → LayerPart
  | qkv => .qkvProj
  | q => .qProj
  | k => .kProj
  | v => .vProj
  | fc1 => .gateUpProj
  | gate => .gateProj
  | up => .upProj

end PendingWeight

namespace EagleDraft

variable (draft : EagleDraft m α) (format : CheckpointFormat)

def mapped (r : ℕ) : ParameterName → Tensor α
  | .fc => .matrix draft.fc
  | .eagleOutputLayer | .lmHead => .matrix draft.lmHead
  | .ofLayer modelPrefix .linearQkv => .matrix (draft.layer modelPrefix.index).qkv
  | .ofLayer modelPrefix .linearProj => .matrix (draft.layer modelPrefix.index).o
  | .ofLayer modelPrefix .linearFc1 =>
    if format.fusedGateUp modelPrefix.index then .matrix (draft.layer modelPrefix.index).gateUp
    else .matrix ((draft.layer modelPrefix.index).gateUpShard r)
  | .ofLayer modelPrefix .linearFc2 => .matrix (draft.layer modelPrefix.index).down
  | name => draft.shard r name

/-- What rank `r` has loaded: of a fused `[gate; up]` a contiguous chunk. -/
def loaded (r : ℕ) : ParameterName → Tensor α
  | .ofLayer modelPrefix .linearFc1 =>
    if format.fusedGateUp modelPrefix.index then
      .matrix ((draft.layer modelPrefix.index).gateUp.rowBlock
        (2 * (m.config.ffnHiddenSize / m.tp)) r)
    else .matrix ((draft.layer modelPrefix.index).gateUpShard r)
  | name => draft.shard r name

end EagleDraft

/-- Which pending weights a checkpoint of this format leaves. -/
def CheckpointFormat.Allows (format : CheckpointFormat) (index : ℕ) : PendingWeight → Prop
  | .qkv => format.fusedQkv index = true
  | .q | .k | .v => format.fusedQkv index = false
  | .fc1 => format.fusedGateUp index = true
  | .gate | .up => format.fusedGateUp index = false

section Loop

variable {draft : EagleDraft m α} {format : CheckpointFormat} {r : ℕ}

def EagleDraft.Fits (draft : EagleDraft m α) (format : CheckpointFormat) (r : ℕ) :
    Option Slot → Tensor α → Prop
  | none, _ => True
  | some (.inl name), weight => name ∈ m.parameters ∧ weight = draft.mapped format r name
  | some (.inr (index, field)), weight =>
    format.Allows index field ∧ weight = (draft.layer index).tensor field.part

/-- The items the loop leaves are the draft's. -/
structure ImportState.Sound (draft : EagleDraft m α) (format : CheckpointFormat) (r : ℕ)
    (st : ImportState α) : Prop where
  mapped : ∀ item ∈ st.mappedState,
    item.1 ∈ m.parameters ∧ item.2 = draft.mapped format r item.1
  pending : ∀ item ∈ st.pendingWeights,
    format.Allows item.1.1 item.1.2 ∧ item.2 = (draft.layer item.1.1).tensor item.1.2.part

theorem ImportState.Sound.assign {st : ImportState α} (h : st.Sound draft format r)
    {slot : Option Slot} {weight : Tensor α} (hfits : draft.Fits format r slot weight) :
    (st.assign slot weight).Sound draft format r := by
  match slot with
  | none => exact h
  | some (.inl name) =>
    refine ⟨fun item hitem ↦ ?_, h.pending⟩
    rcases Dict.mem_set hitem with rfl | hitem
    · exact hfits
    · exact h.mapped item hitem
  | some (.inr (index, field)) =>
    refine ⟨h.mapped, fun item hitem ↦ ?_⟩
    rcases Dict.mem_set hitem with rfl | hitem
    · exact hfits
    · exact h.pending item hitem

theorem mapped_of_shard {name : ParameterName} {entries : List α}
    (h : draft.shard r name = .vector entries) :
    draft.mapped format r name = .vector entries := by
  unfold EagleDraft.mapped
  split
  · exact absurd h nofun
  · exact absurd h nofun
  · exact absurd h nofun
  · exact absurd h nofun
  · exact absurd h nofun
  · exact absurd h nofun
  · exact absurd h nofun
  · exact h

theorem fits_layer {layer : EagleLayerLayout} (hlayer : layer ∈ m.layout.layers)
    {part : LayerPart} (hholds : layer.holds format part = true) :
    draft.Fits format r (layer.slot part) ((draft.layer layer.layerIndex).tensor part) := by
  have hindex := m.index_modelPrefix hlayer
  have hnorm : ∀ (key : Option ParameterName) (entries : List α),
      (∀ name, key = some name → name ∈ m.parameters ∧ draft.shard r name = .vector entries) →
      draft.Fits format r (key.map .inl) (.vector entries) := by
    intro key entries h
    cases key with
    | none => trivial
    | some name => exact ⟨(h name rfl).1, (mapped_of_shard (h name rfl).2).symm⟩
  cases part with
  | qkvProj | gateUpProj => exact ⟨hholds, rfl⟩
  | qProj | kProj | vProj | gateProj | upProj => exact ⟨(Bool.not_eq_true' _).mp hholds, rfl⟩
  | oProj =>
    exact ⟨m.mem_parameters_of_layer hlayer (.inr (.inl rfl)),
      congrArg (fun i ↦ Tensor.matrix (draft.layer i).o) hindex.symm⟩
  | downProj =>
    exact ⟨m.mem_parameters_of_layer hlayer (.inr (.inr (.inr (.inl rfl)))),
      congrArg (fun i ↦ Tensor.matrix (draft.layer i).down) hindex.symm⟩
  | hiddenNorm =>
    refine hnorm _ _ fun name h ↦ ⟨?_, ((m.norm_shards hlayer draft r).1 h).2⟩
    exact m.mem_parameters_of_layer hlayer (.inr (.inr (.inr (.inr (.inl h)))))
  | inputLayernorm =>
    refine hnorm _ _ fun name h ↦ ⟨?_, ((m.norm_shards hlayer draft r).2.1 h).2⟩
    exact m.mem_parameters_of_layer hlayer (.inr (.inr (.inr (.inr (.inr (.inl h))))))
  | postAttentionLayernorm =>
    refine hnorm _ _ fun name h ↦ ⟨?_, ((m.norm_shards hlayer draft r).2.2 h).2⟩
    exact m.mem_parameters_of_layer hlayer (.inr (.inr (.inr (.inr (.inr (.inr h))))))

theorem fits_named {name : HfName} (h : name ∈ m.names LayerPart.all format) :
    draft.Fits format r (m.slot name) (draft.named name) := by
  rcases m.mem_names h with rfl | ⟨rfl, key, hsome⟩ | ⟨rfl, key, hsome⟩ | ⟨rfl, hd2t⟩ |
    ⟨layer, hlayer, part, -, hholds, rfl⟩
  · exact ⟨List.mem_cons_self .., rfl⟩
  · rw [DraftModel.slot, hsome]
    refine ⟨m.finalNormKey_mem_parameters hsome, ?_⟩
    rcases (m.finalNormKey_mem hsome).1 with rfl | rfl <;> rfl
  · rw [DraftModel.slot, hsome]
    refine ⟨m.lmHeadKey_mem_parameters hsome, ?_⟩
    rcases (m.lmHeadKey_mem hsome).1 with rfl | rfl <;> rfl
  · rw [DraftModel.slot, if_pos hd2t]
    exact ⟨m.d2t_mem_parameters hd2t, rfl⟩
  · rw [m.slot_layer hlayer, EagleDraft.named, LayerPart.ofKey_key]
    exact fits_layer hlayer hholds

/-- The loop over a checkpoint: it stores what the checkpoint names, and nothing else. -/
theorem foldlM_mapHfWeight {modelState : StateDict α} (hstate : m.IsState modelState)
    {hf : Dict (List Char) (Tensor α)} {names : List HfName}
    (hentries : List.Forall₂ draft.Entry hf names)
    (hnames : ∀ name ∈ names, name ≠ .other → name ∈ m.names LayerPart.all format)
    {st : ImportState α} (hst : st.Sound draft format r) :
    ∃ st', hf.foldlM (mapHfWeight modelState m.layout) st = some st' ∧
      st'.Sound draft format r ∧
      ∀ s, st'.Has s ↔ st.Has s ∨ ∃ name ∈ names, m.slot name = some s := by
  induction hentries generalizing st with
  | nil => exact ⟨st, rfl, hst, fun s ↦ by simp⟩
  | @cons entry name hf names hentry _ ih =>
    obtain ⟨hname, hrest⟩ := List.forall_mem_cons.mp hnames
    have hfits : draft.Fits format r (m.slot name) entry.2 := by
      cases hentry with
      | skipped tensor hother => trivial
      | named _ hspells => exact fits_named (hname hspells.ne_other)
    obtain ⟨st', hrun, hsound, hhas⟩ := ih hrest (hst.assign hfits)
    refine ⟨st', ?_, hsound, fun s ↦ ?_⟩
    · rw [List.foldlM_cons, mapHfWeight_eq hstate hentry hname, Option.bind_eq_bind,
        Option.bind_some]
      exact hrun
    · rw [hhas, ImportState.has_assign]
      simp only [List.mem_cons, exists_eq_or_imp]
      tauto

end Loop

section ApplyTo

variable {draft : EagleDraft m α} {format : CheckpointFormat} {r : ℕ} {st : ImportState α}

theorem get_pending (hsound : st.Sound draft format r) {index : ℕ} (field : PendingWeight)
    (hhas : format.Allows index field → st.Has (.inr (index, field))) :
    (format.Allows index field → st.pendingWeights.get (index, field) =
        some ((draft.layer index).tensor field.part)) ∧
      (¬ format.Allows index field → st.pendingWeights.get (index, field) = none) := by
  refine ⟨fun h ↦ ?_, fun h ↦ ?_⟩
  · exact Dict.get_of_forall (f := fun x ↦ (draft.layer x.1).tensor x.2.part)
      (fun item hitem ↦ (hsound.pending item hitem).2) (hhas h)
  · by_contra hsome
    obtain ⟨weight, hweight⟩ := Option.ne_none_iff_exists'.mp hsome
    exact h (hsound.pending _ (Dict.mem_of_get hweight)).1

theorem applyTo_eq {modelState : StateDict α} (hstate : m.IsState modelState) (hr : r < m.tp)
    (hsound : st.Sound draft format r) {layer : EagleLayerLayout}
    (hlayer : layer ∈ m.layout.layers)
    (hhas : ∀ field, format.Allows layer.layerIndex field → st.Has (.inr (layer.layerIndex, field)))
    (mappedState : StateDict α) :
    applyTo (fun field ↦ st.pendingWeights.get (layer.layerIndex, field)) mappedState layer
        modelState r m.config =
      some ((mappedState.set layer.qkvWeightKey (draft.mapped format r layer.qkvWeightKey)).set
        layer.fc1WeightKey (draft.mapped format r layer.fc1WeightKey)) := by
  have hindex := m.index_modelPrefix hlayer
  have hget := fun field ↦ get_pending hsound field (hhas field)
  have hqkv : draft.mapped format r layer.qkvWeightKey =
      .matrix (draft.layer layer.layerIndex).qkv :=
    congrArg (fun i ↦ Tensor.matrix (draft.layer i).qkv) hindex
  have hfc1 : draft.mapped format r layer.fc1WeightKey =
      if format.fusedGateUp layer.layerIndex then .matrix (draft.layer layer.layerIndex).gateUp
      else .matrix ((draft.layer layer.layerIndex).gateUpShard r) :=
    congrArg (fun i ↦ if format.fusedGateUp i then Tensor.matrix (draft.layer i).gateUp
      else .matrix ((draft.layer i).gateUpShard r)) hindex
  obtain ⟨target, htarget, hshape⟩ := hstate.shape_eq layer.fc1WeightKey
    (m.mem_parameters_of_layer hlayer (.inr (.inr (.inl rfl))))
  have hcombined : combineOrShardWeightParts
      (st.pendingWeights.get (layer.layerIndex, .fc1))
      [st.pendingWeights.get (layer.layerIndex, .gate),
        st.pendingWeights.get (layer.layerIndex, .up)]
      (modelState.get layer.fc1WeightKey) r =
        some (some (draft.mapped format r layer.fc1WeightKey)) := by
    rw [hfc1]
    cases hfused : format.fusedGateUp layer.layerIndex with
    | true =>
      rw [(hget .fc1).1 hfused]
      rfl
    | false =>
      have hnone : ¬ format.Allows layer.layerIndex .fc1 := by
        rw [CheckpointFormat.Allows, hfused]
        exact Bool.false_ne_true
      rw [(hget .fc1).2 hnone, (hget .gate).1 hfused, (hget .up).1 hfused, htarget]
      exact combineOrShard_gateUp (draft.layer layer.layerIndex) hshape hr
  rw [applyTo]
  dsimp only
  rw [hcombined]
  cases hfused : format.fusedQkv layer.layerIndex with
  | true =>
    rw [(hget .qkv).1 hfused, hqkv]
    rfl
  | false =>
    have hnone : ¬ format.Allows layer.layerIndex .qkv := by
      rw [CheckpointFormat.Allows, hfused]
      exact Bool.false_ne_true
    rw [(hget .qkv).2 hnone, (hget .q).1 hfused, (hget .k).1 hfused, (hget .v).1 hfused, hqkv]
    have hinterleaved := (draft.layer layer.layerIndex).interleaveQkv_eq
    simp only [PendingWeight.part, LayerWeights.tensor, Tensor.grid, Option.bind_eq_bind,
      Option.bind_some, hinterleaved]
    rfl

theorem foldlM_applyTo {modelState : StateDict α} (hstate : m.IsState modelState) (hr : r < m.tp)
    (hsound : st.Sound draft format r)
    (hhas : ∀ layer ∈ m.layout.layers, ∀ field, format.Allows layer.layerIndex field →
      st.Has (.inr (layer.layerIndex, field)))
    (layers : List EagleLayerLayout) (hlayers : layers ⊆ m.layout.layers)
    {mappedState : StateDict α} (hmapped : ∀ item ∈ mappedState,
      item.1 ∈ m.parameters ∧ item.2 = draft.mapped format r item.1) :
    ∃ last, layers.foldlM (fun mappedState layer ↦
        applyTo (fun field ↦ st.pendingWeights.get (layer.layerIndex, field)) mappedState layer
          modelState r m.config) mappedState = some last ∧
      (∀ item ∈ last, item.1 ∈ m.parameters ∧ item.2 = draft.mapped format r item.1) ∧
      ∀ name, name ∈ last.map Prod.fst ↔ name ∈ mappedState.map Prod.fst ∨
        ∃ layer ∈ layers, name = layer.qkvWeightKey ∨ name = layer.fc1WeightKey := by
  induction layers generalizing mappedState with
  | nil => exact ⟨mappedState, rfl, hmapped, fun name ↦ by simp⟩
  | cons layer layers ih =>
    obtain ⟨hlayer, hrest⟩ := List.cons_subset.mp hlayers
    have hnext : ∀ item ∈ (mappedState.set layer.qkvWeightKey
        (draft.mapped format r layer.qkvWeightKey)).set layer.fc1WeightKey
          (draft.mapped format r layer.fc1WeightKey),
        item.1 ∈ m.parameters ∧ item.2 = draft.mapped format r item.1 := by
      intro item hitem
      rcases Dict.mem_set hitem with rfl | hitem
      · exact ⟨m.mem_parameters_of_layer hlayer (.inr (.inr (.inl rfl))), rfl⟩
      · rcases Dict.mem_set hitem with rfl | hitem
        · exact ⟨m.mem_parameters_of_layer hlayer (.inl rfl), rfl⟩
        · exact hmapped item hitem
    obtain ⟨last, hrun, hlast, hkeys⟩ := ih hrest hnext
    refine ⟨last, ?_, hlast, fun name ↦ ?_⟩
    · rw [List.foldlM_cons, applyTo_eq hstate hr hsound hlayer (hhas layer hlayer),
        Option.bind_eq_bind, Option.bind_some]
      exact hrun
    · rw [hkeys, Dict.mem_keys_set, Dict.mem_keys_set]
      simp only [List.mem_cons, exists_eq_or_imp]
      constructor
      · rintro ((h | h | h) | h)
        exacts [.inr (.inl (.inr h)), .inr (.inl (.inl h)), .inl h, .inr (.inr h)]
      · rintro (h | (h | h) | h)
        exacts [.inl (.inr (.inr h)), .inl (.inr (.inl h)), .inl (.inl h), .inr h]

end ApplyTo

section Shards

variable {draft : EagleDraft m α} {format : CheckpointFormat} {r : ℕ}

/-- The axis that `_build_split_axis_by_parameter` gives a parameter. -/
def splitAxis : ParameterName → ℕ
  | .ofLayer _ .linearProj | .ofLayer _ .linearFc2 => 1
  | _ => 0

theorem get_splitAxis {name : ParameterName}
    (h : name = .fc ∨ m.layout.lmHeadKey = some name ∨ ∃ layer ∈ m.layout.layers,
      name = layer.qkvWeightKey ∨ name = layer.projWeightKey ∨ name = layer.fc1WeightKey ∨
        name = layer.fc2WeightKey) :
    (splitAxisByParameter m.layout).get name = some (splitAxis name) := by
  refine Dict.get_of_forall (fun item hitem ↦ ?_) ?_
  · simp only [splitAxisByParameter, List.mem_append, List.mem_cons, List.mem_map,
      List.mem_flatMap, Option.mem_toList, List.not_mem_nil, or_false] at hitem
    rcases hitem with (rfl | ⟨key, hkey, rfl⟩) | ⟨layer, -, rfl | rfl | rfl | rfl⟩
    · rfl
    · rcases (m.lmHeadKey_mem hkey).1 with rfl | rfl <;> rfl
    all_goals rfl
  · rcases h with rfl | h | ⟨layer, hlayer, h⟩
    · exact List.mem_cons_self ..
    · simp [splitAxisByParameter, h]
    · refine List.mem_map.mpr ⟨(name, splitAxis name), ?_, rfl⟩
      refine List.mem_append_right _ (List.mem_flatMap.mpr ⟨layer, hlayer, ?_⟩)
      rcases h with rfl | rfl | rfl | rfl
      exacts [.head _, .tail _ (.head _), .tail _ (.tail _ (.head _)),
        .tail _ (.tail _ (.tail _ (.head _)))]

theorem shardToLocalTp_mapped {modelState : StateDict α} (hstate : m.IsState modelState)
    (hr : r < m.tp) {name : ParameterName} (hname : name ∈ m.parameters) :
    shardToLocalTp m.layout modelState r name (draft.mapped format r name) =
      some (draft.loaded format r name) := by
  obtain ⟨target, htarget, hshape⟩ := hstate.shape_eq name hname
  have hnorm : ∀ entries : List α, draft.shard r name = .vector entries →
      entries.length = m.config.hiddenSize → m.localShape name = [m.config.hiddenSize] →
      shardToLocalTp m.layout modelState r name (draft.mapped format r name) =
        some (draft.loaded format r name) := by
    intro entries hvalue hlength hlocal
    have hloaded : draft.loaded format r name = draft.shard r name := by
      unfold EagleDraft.loaded
      split
      · exact absurd hvalue nofun
      · rfl
    rw [mapped_of_shard hvalue, hloaded, hvalue]
    refine shardToLocalTp_same htarget ?_
    rw [hshape, hlocal, Tensor.shape, hlength]
  rcases m.mem_parameters hname with rfl | h | h | ⟨rfl, -⟩ | ⟨layer, hlayer, h⟩
  · obtain ⟨hrows, hcols⟩ := eq_of_shape draft.fc_shape
    exact shardToLocalTp_rows htarget (by rw [hshape, hcols]; rfl) (get_splitAxis (.inl rfl))
      (hrows.trans m.hidden_eq) (m.div_tp_pos m.hidden_pos m.tp_dvd_hidden) hr
  · rcases (m.finalNormKey_mem h).1 with rfl | rfl
    · exact hnorm draft.norm rfl draft.norm_length rfl
    · exact hnorm draft.norm rfl draft.norm_length rfl
  · obtain ⟨hrows, hcols⟩ := eq_of_shape draft.lmHead_shape
    have haxis := get_splitAxis (m := m) (.inr (.inl h))
    rcases (m.lmHeadKey_mem h).1 with rfl | rfl
    · exact shardToLocalTp_rows htarget (by rw [hshape, hcols]; rfl) haxis
        (hrows.trans m.vocab_eq) (m.div_tp_pos m.vocab_pos m.tp_dvd_vocab) hr
    · exact shardToLocalTp_rows htarget (by rw [hshape, hcols]; rfl) haxis
        (hrows.trans m.vocab_eq) (m.div_tp_pos m.vocab_pos m.tp_dvd_vocab) hr
  · refine shardToLocalTp_same htarget ?_
    rw [hshape]
    exact congrArg (fun n ↦ [n]) draft.d2t_length
  · have haxis : name = layer.qkvWeightKey ∨ name = layer.projWeightKey ∨
        name = layer.fc1WeightKey ∨ name = layer.fc2WeightKey →
        (splitAxisByParameter m.layout).get name = some (splitAxis name) :=
      fun h ↦ get_splitAxis (.inr (.inr ⟨layer, hlayer, h⟩))
    set w := draft.layer layer.modelPrefix.index with hw
    rcases h with rfl | rfl | rfl | rfl | h | h | h
    · have hgroups := m.div_tp_pos m.groups_pos m.tp_dvd_groups
      have hgroup : 0 < m.groupRows := Nat.mul_pos (by omega) m.headDim_pos
      have hrows : w.qkv.rows.length = m.tp * (m.config.groups / m.tp * m.groupRows) := by
        rw [w.qkv_rows, ← Nat.mul_assoc, ← m.groups_eq]
      refine (shardToLocalTp_rows htarget (by rw [hshape]; rfl) (haxis (.inl rfl)) hrows
        (Nat.mul_pos hgroups hgroup) hr).trans ?_
      rw [w.rowBlock_qkv_groups hr]
      rfl
    · obtain ⟨hrows, hcols⟩ := eq_of_shape w.o_shape
      have hpos := Nat.mul_pos m.heads_pos m.headDim_pos
      have hdvd := (m.tp_dvd_groups.trans m.groups_dvd_heads).mul_right m.config.headDim
      exact shardToLocalTp_cols htarget (by rw [hshape, hrows]; rfl) (haxis (.inr (.inl rfl)))
        (hcols.trans m.heads_dim_eq) (m.div_tp_pos hpos hdvd) hr
    · have hffn := m.div_tp_pos m.ffn_pos m.tp_dvd_ffn
      cases hfused : format.fusedGateUp layer.modelPrefix.index with
      | true =>
        have hmapped : draft.mapped format r layer.fc1WeightKey = .matrix w.gateUp := if_pos hfused
        have hloaded : draft.loaded format r layer.fc1WeightKey =
            .matrix (w.gateUp.rowBlock (2 * (m.config.ffnHiddenSize / m.tp)) r) := if_pos hfused
        rw [hmapped, hloaded]
        exact shardToLocalTp_rows htarget (by rw [hshape]; rfl) (haxis (.inr (.inr (.inl rfl))))
          w.gateUp_rows (Nat.mul_pos Nat.two_pos hffn) hr
      | false =>
        have hnot : ¬ format.fusedGateUp layer.modelPrefix.index = true := by
          rw [hfused]
          exact Bool.false_ne_true
        have hmapped : draft.mapped format r layer.fc1WeightKey = .matrix (w.gateUpShard r) :=
          if_neg hnot
        have hloaded : draft.loaded format r layer.fc1WeightKey = .matrix (w.gateUpShard r) :=
          if_neg hnot
        rw [hmapped, hloaded]
        refine shardToLocalTp_same htarget ?_
        rw [hshape]
        exact w.gateUpShard_shape hr
    · obtain ⟨hrows, hcols⟩ := eq_of_shape w.down_shape
      exact shardToLocalTp_cols htarget (by rw [hshape, hrows]; rfl)
        (haxis (.inr (.inr (.inr rfl)))) (hcols.trans m.ffn_eq)
        (m.div_tp_pos m.ffn_pos m.tp_dvd_ffn) hr
    · refine hnorm _ ((m.norm_shards hlayer draft r).1 h).2
        (draft.layer layer.layerIndex).hiddenNorm_length ?_
      exact m.localShape_norm hlayer (.inl h)
    · refine hnorm _ ((m.norm_shards hlayer draft r).2.1 h).2
        (draft.layer layer.layerIndex).inputLayernorm_length ?_
      exact m.localShape_norm hlayer (.inr (.inl h))
    · refine hnorm _ ((m.norm_shards hlayer draft r).2.2 h).2
        (draft.layer layer.layerIndex).postAttentionLayernorm_length ?_
      exact m.localShape_norm hlayer (.inr (.inr h))

end Shards

end NemoRL.Models.Draft
