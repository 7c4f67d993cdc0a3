import Mathlib
import NemoRL.Models.Draft.EagleImport

namespace NemoRL.Models.Draft

open Foundations Foundations.Blocks

variable {m : DraftModel} {α : Type} {draft : EagleDraft m α} {format : CheckpointFormat}
  {hf : Dict (List Char) (Tensor α)} {modelState : StateDict α} {r : ℕ}

theorem exists_named_of_parameter (format : CheckpointFormat) {name : ParameterName} (h : name ∈ m.parameters) :
    (∃ hfName ∈ m.names LayerPart.all format, m.slot hfName = some (.inl name)) ∨
      ∃ layer ∈ m.layout.layers, name = layer.qkvWeightKey ∨ name = layer.fc1WeightKey := by
  have hpart : ∀ layer ∈ m.layout.layers, ∀ part, layer.holds format part = true →
      layer.slot part = some (.inl name) →
      ∃ hfName ∈ m.names LayerPart.all format, m.slot hfName = some (.inl name) :=
    fun layer hlayer part hholds hslot ↦
      ⟨_, m.layer_mem_names hlayer hholds, (m.slot_layer hlayer part).trans hslot⟩
  rcases m.mem_parameters h with rfl | h | h | ⟨rfl, hd2t⟩ | ⟨layer, hlayer, h⟩
  · exact .inl ⟨.fc, by simp [DraftModel.names], rfl⟩
  · refine .inl ⟨.norm, by simp [DraftModel.names, h], ?_⟩
    rw [DraftModel.slot, h]
    rfl
  · refine .inl ⟨.lmHead, by simp [DraftModel.names, h], ?_⟩
    rw [DraftModel.slot, h]
    rfl
  · exact .inl ⟨.d2t, by simp [DraftModel.names, hd2t], if_pos hd2t⟩
  · rcases h with h | rfl | h | rfl | h | h | h
    · exact .inr ⟨layer, hlayer, .inl h⟩
    · exact .inl (hpart layer hlayer .oProj rfl rfl)
    · exact .inr ⟨layer, hlayer, .inr h⟩
    · exact .inl (hpart layer hlayer .downProj rfl rfl)
    · exact .inl (hpart layer hlayer .hiddenNorm (by simp [EagleLayerLayout.holds, h])
        (by simp [EagleLayerLayout.slot, h]))
    · exact .inl (hpart layer hlayer .inputLayernorm (by simp [EagleLayerLayout.holds, h])
        (by simp [EagleLayerLayout.slot, h]))
    · exact .inl (hpart layer hlayer .postAttentionLayernorm (by simp [EagleLayerLayout.holds, h])
        (by simp [EagleLayerLayout.slot, h]))

theorem exists_named_of_allows {layer : EagleLayerLayout} (hlayer : layer ∈ m.layout.layers)
    {field : PendingWeight} (h : format.Allows layer.layerIndex field) :
    ∃ hfName ∈ m.names LayerPart.all format,
      m.slot hfName = some (.inr (layer.layerIndex, field)) := by
  refine ⟨.layer layer.layerIndex field.part.key.toList, m.layer_mem_names hlayer ?_,
    (m.slot_layer hlayer field.part).trans ?_⟩
  · cases field with
    | qkv | fc1 => exact h
    | q | k | v | gate | up => exact (Bool.not_eq_true' _).mpr h
  · cases field <;> rfl

theorem mapHfStateToEagleState_eq (hpresents : draft.Presents format hf)
    (hstate : m.IsState modelState) (hr : r < m.tp) :
    ∃ newState, mapHfStateToEagleState hf modelState m.layout r m.config = some newState ∧
      ∀ name ∈ m.parameters, newState.get name = some (draft.loaded format r name) := by
  obtain ⟨names, hentries, hperm⟩ := hpresents
  have hnames : ∀ name ∈ names, name ≠ .other → name ∈ m.names LayerPart.all format := by
    intro name hname hne
    exact hperm.mem_iff.mp (List.mem_filter.mpr ⟨hname, decide_eq_true hne⟩)
  have hin : ∀ name ∈ m.names LayerPart.all format, name ∈ names :=
    fun name hname ↦ (List.mem_filter.mp (hperm.mem_iff.mpr hname)).1
  have hempty : (⟨[], []⟩ : ImportState α).Sound draft format r := ⟨nofun, nofun⟩
  obtain ⟨st, hrun, hsound, hhas⟩ := foldlM_mapHfWeight hstate hentries hnames hempty
  have hfields : ∀ layer ∈ m.layout.layers, ∀ field, format.Allows layer.layerIndex field →
      st.Has (.inr (layer.layerIndex, field)) := by
    intro layer hlayer field hallows
    obtain ⟨name, hname, hslot⟩ := exists_named_of_allows hlayer hallows
    exact (hhas _).mpr (.inr ⟨name, hin name hname, hslot⟩)
  obtain ⟨last, happly, hlast, hkeys⟩ :=
    foldlM_applyTo hstate hr hsound hfields m.layout.layers (List.Subset.refl _) hsound.mapped
  have hall : ∀ name ∈ m.parameters, name ∈ last.map Prod.fst := by
    intro name hname
    rcases exists_named_of_parameter format hname with ⟨hfName, hmem, hslot⟩ | hlayer
    · exact (hkeys name).mpr (.inl ((hhas (.inl name)).mpr (.inr ⟨hfName, hin _ hmem, hslot⟩)))
    · exact (hkeys name).mpr (.inr hlayer)
  have hne : last ≠ [] := by
    rintro rfl
    exact absurd (hall .fc (List.mem_cons_self ..)) List.not_mem_nil
  obtain ⟨newState, hnew, hget⟩ := Dict.get_mapValues (d := last)
    (f := shardToLocalTp m.layout modelState r) (by
      intro item hitem
      obtain ⟨hname, hvalue⟩ := hlast item hitem
      exact ⟨_, hvalue ▸ shardToLocalTp_mapped hstate hr hname⟩)
  refine ⟨newState, ?_, fun name hname ↦ ?_⟩
  · rw [mapHfStateToEagleState, hrun, Option.bind_eq_bind, Option.bind_some, happly,
      Option.bind_eq_bind, Option.bind_some, if_neg hne, hnew]
  · have hmapped := Dict.get_of_forall (fun item hitem ↦ (hlast item hitem).2) (hall name hname)
    rw [hget, hmapped, Option.bind_some]
    exact shardToLocalTp_mapped hstate hr hname

theorem get_loadStateDict (modelState newState : StateDict α) (name : ParameterName) :
    (loadStateDict modelState newState).get name =
      (modelState.get name).map fun old ↦ (newState.get name).getD old := by
  induction modelState with
  | nil => rfl
  | cons item modelState ih =>
    rw [loadStateDict] at ih ⊢
    rw [List.map_cons, Dict.get_cons, Dict.get_cons, ih]
    split_ifs with h
    · rw [h]
      rfl
    · rfl

theorem keys_loadStateDict (modelState newState : StateDict α) :
    (loadStateDict modelState newState).map Prod.fst = modelState.map Prod.fst :=
  List.map_map

/-- What a rank holds after the import. -/
structure IsLoaded (draft : EagleDraft m α) (format : CheckpointFormat) (r : ℕ)
    (state : StateDict α) : Prop where
  keys_eq : state.map Prod.fst = m.keys
  get_eq : ∀ name ∈ m.parameters, state.get name = some (draft.loaded format r name)

theorem loadHfWeightsToEagle_eq (hpresents : draft.Presents format hf)
    (hstate : m.IsState modelState) (hr : r < m.tp) :
    ∃ state, loadHfWeightsToEagle hf modelState r m.config = some state ∧
      IsLoaded draft format r state := by
  obtain ⟨newState, hnew, hget⟩ := mapHfStateToEagleState_eq hpresents hstate hr
  refine ⟨loadStateDict modelState newState, ?_, ⟨?_, fun name hname ↦ ?_⟩⟩
  · rw [loadHfWeightsToEagle, hstate.keys_eq, m.detect_eq, Option.bind_eq_bind, Option.bind_some,
      hnew]
    rfl
  · rw [keys_loadStateDict, hstate.keys_eq]
  · obtain ⟨old, hold, -⟩ := hstate.shape_eq name hname
    rw [get_loadStateDict, hold, hget name hname]
    rfl

theorem mapM_load {states : ℕ → StateDict α} (hpresents : draft.Presents format hf)
    (hstates : ∀ r < m.tp, m.IsState (states r)) :
    ∃ loaded : ℕ → StateDict α,
      (List.range m.tp).mapM (fun r ↦ loadHfWeightsToEagle hf (states r) r m.config) =
        some ((List.range m.tp).map loaded) ∧
      ∀ r < m.tp, IsLoaded draft format r (loaded r) := by
  have hload := fun r (hr : r < m.tp) ↦ loadHfWeightsToEagle_eq hpresents (hstates r hr) hr
  choose! loaded hloaded hspec using hload
  exact ⟨loaded, mapM_some fun r hr ↦ hloaded r (List.mem_range.mp hr), hspec⟩

theorem requireStateTensor_range (states : ℕ → StateDict α) (hr : r < m.tp)
    (name : ParameterName) :
    requireStateTensor ((List.range m.tp).map states) r name = (states r).get name := by
  rw [requireStateTensor, List.getElem?_map, List.getElem?_range hr]
  rfl

/-- Without fused gate and up weights, or on one rank, a rank holds its shards. -/
theorem loaded_eq_shard (h : m.tp = 1 ∨
      ∀ layer ∈ m.layout.layers, format.fusedGateUp layer.layerIndex = false)
    (hr : r < m.tp) {name : ParameterName} (hname : name ∈ m.parameters) :
    draft.loaded format r name = draft.shard r name := by
  have hfc1 : ∀ layer ∈ m.layout.layers, name = layer.fc1WeightKey →
      draft.loaded format r name = draft.shard r name := by
    rintro layer hlayer rfl
    set w := draft.layer layer.modelPrefix.index with hw
    cases hfused : format.fusedGateUp layer.modelPrefix.index with
    | false =>
      refine if_neg ?_
      rw [hfused]
      exact Bool.false_ne_true
    | true =>
      rcases h with htp | hnone
      · obtain rfl : r = 0 := by omega
        have hrows := w.gateUp_rows
        rw [htp, Nat.one_mul, ← htp] at hrows
        have hshard : draft.shard 0 layer.fc1WeightKey = .matrix (w.gateUpShard 0) := rfl
        rw [hshard, w.gateUpShard_of_one htp]
        refine (if_pos hfused).trans ?_
        rw [Grid.rowBlock_self hrows]
      · rw [m.index_modelPrefix hlayer, hnone layer hlayer] at hfused
        exact absurd hfused Bool.false_ne_true
  by_cases hlayer : ∃ layer ∈ m.layout.layers, name = layer.fc1WeightKey
  · obtain ⟨layer, hmem, hlayer⟩ := hlayer
    exact hfc1 layer hmem hlayer
  · unfold EagleDraft.loaded
    split
    · rename_i modelPrefix
      refine absurd ?_ hlayer
      rcases m.mem_parameters hname with h | h | h | ⟨h, -⟩ | ⟨layer, hmem, h⟩
      · exact absurd h nofun
      · rcases (m.finalNormKey_mem h).1 with h | h <;> exact absurd h nofun
      · rcases (m.lmHeadKey_mem h).1 with h | h <;> exact absurd h nofun
      · exact absurd h nofun
      · refine ⟨layer, hmem, ?_⟩
        rcases h with h | h | h | h | h | h | h
        · exact absurd (ParameterName.ofLayer.inj h).2 nofun
        · exact absurd (ParameterName.ofLayer.inj h).2 nofun
        · exact h
        · exact absurd (ParameterName.ofLayer.inj h).2 nofun
        · exact absurd ((m.norm_shards hmem draft r).1 h).2 nofun
        · exact absurd ((m.norm_shards hmem draft r).2.1 h).2 nofun
        · exact absurd ((m.norm_shards hmem draft r).2.2 h).2 nofun
    · rfl

end NemoRL.Models.Draft
