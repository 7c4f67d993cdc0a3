import Mathlib
import NemoRL.Generation.RefitGroups

namespace NemoRL.Generation.ExpertRefit

open Foundations Foundations.Boxes Foundations.Overlays Foundations.Tensors
open Foundations.Blocks (bind_eq_ok forall₂_of_mapM_ok)

variable {δ ν : Type} {W : Worker δ}

section Names

variable {name : List Char} {expert : HfExpertWeight}

theorem parseHfExpertWeight_spec (h : parseHfExpertWeight name = some expert) :
    isExpertParameter expert.parameterName = true ∧
      (".w2_weight".toList <:+ expert.parameterName ↔ expert.shardId = .w2) ∧
      expert.tpShardDim = if expert.shardId = .w2 then 1 else 0 := by
  unfold parseHfExpertWeight at h
  dsimp only at h
  split at h
  · split_ifs at h with hform
    obtain ⟨shardId, -, h⟩ := Option.bind_eq_some_iff.mp h
    obtain ⟨expertId, -, rfl⟩ := Option.map_eq_some_iff.mp h
    have hleaf : ∀ leaf : List Char, ∀ start : List Char,
        start ++ ".mlp.experts.routed_experts.".toList ++ leaf =
          (start ++ ".mlp.experts.routed_experts".toList) ++ ('.' :: leaf) := by
      intro leaf start
      rw [List.append_assoc, List.append_assoc]
      rfl
    dsimp only
    rw [hleaf]
    by_cases hw2 : shardId = .w2
    · rw [if_pos hw2]
      exact ⟨Bool.or_eq_true_iff.mpr (.inr (List.isSuffixOf_iff_suffix.mpr (List.suffix_append ..))),
        iff_of_true (List.suffix_append ..) hw2, rfl⟩
    · rw [if_neg hw2]
      refine ⟨Bool.or_eq_true_iff.mpr (.inl (List.isSuffixOf_iff_suffix.mpr
        (List.suffix_append ..))), iff_of_false (fun hsuffix ↦ ?_) hw2, rfl⟩
      have hshort := List.suffix_of_suffix_length_le hsuffix
        (List.suffix_append _ ('.' :: "w13_weight".toList)) (by decide)
      exact absurd hshort (by decide)
  · cases h

end Names

/-- The number of an expert at a rank, if the rank owns it. -/
def Owner.numberOf (owner : Owner) (expertId : ℕ) : Option ℕ :=
  if owner.useEp then
    let expertMap := owner.expertMap.getD []
    ((expertMap.take (owner.numLogicalExperts.getD expertMap.length))[expertId]?).bind fun l ↦
      if 0 ≤ l then some l.toNat else none
  else some expertId

structure Place (δ : Type) where
  expert : HfExpertWeight
  param : Param δ
  owner : Owner
  localId : ℕ

def Worker.isMissing (W : Worker δ) (name : List Char) : Bool :=
  W.missingLayerNames.any (·.isPrefixOf name)

def Worker.place (W : Worker δ) (name : List Char) : Option (Place δ) := do
  let expert ← parseHfExpertWeight name
  let param ← Dict.get W.namedParameters expert.parameterName
  let owner ← param.owner
  let localId ← owner.numberOf expert.expertId
  if W.isMissing name then none else some ⟨expert, param, owner, localId⟩

namespace Place

variable (p : Place δ)

def start (t : Dense δ ν) : ℕ :=
  p.owner.tpRank * (t.shape.getD p.expert.tpShardDim 0 / p.owner.tpSize)

/-- The rank's part of a weight. -/
def part (t : Dense δ ν) : Dense δ ν :=
  { t with
    shape := t.shape.set p.expert.tpShardDim (t.shape.getD p.expert.tpShardDim 0 / p.owner.tpSize)
    data := fun i ↦ t.data (i.modify p.expert.tpShardDim (· + p.start t)) }

/-- The refit writes the part itself: it is a shard, or the experts are distributed. -/
def Direct (t : Dense δ ν) : Prop := p.owner.useEp = true ∨ (p.part t).shape ≠ t.shape

instance (t : Dense δ ν) : Decidable (p.Direct t) := inferInstanceAs (Decidable (_ ∨ _))

def landing (t : Dense δ ν) : Landing δ ν :=
  ⟨p.expert.parameterName, p.param, p.expert.shardId, p.localId, t⟩

end Place

/-- What a rank and the weights it is refitted with have to agree on. -/
structure Loadable (W : Worker δ) (weights : List (NamedWeight δ ν)) : Prop where
  distinct : weights.Pairwise fun w w' ↦
    parseHfExpertWeight w.1 = parseHfExpertWeight w'.1 → parseHfExpertWeight w.1 = none
  info : ∀ w ∈ weights, ∀ p, W.place w.1 = some p →
    ∃ d, W.stateDictInfo.bind (Dict.get · w.1) = some (w.2.shape, d)
  matrix : ∀ w ∈ weights, ∀ p, W.place w.1 = some p → w.2.shape.length = 2
  shards : ∀ w ∈ weights, ∀ p, W.place w.1 = some p → p.owner.tpRank < p.owner.tpSize ∧
    p.owner.tpSize ∣ w.2.shape.getD p.expert.tpShardDim 0
  mapped : ∀ w ∈ weights, ∀ p, W.place w.1 = some p →
    p.owner.localExpertId p.expert.expertId = p.localId
  injective : ∀ w ∈ weights, ∀ w' ∈ weights, ∀ p p', W.place w.1 = some p →
    W.place w'.1 = some p' → p.expert.parameterName = p'.expert.parameterName →
    p.localId = p'.localId → p.expert.expertId = p'.expert.expertId
  alike : ∀ w ∈ weights, ∀ w' ∈ weights, ∀ p p', W.place w.1 = some p → W.place w'.1 = some p' →
    p.expert.parameterName = p'.expert.parameterName → p.expert.shardId = p'.expert.shardId →
    w.2.dtype = w'.2.dtype ∧ w.2.shape = w'.2.shape
  fits : ∀ w ∈ weights, ∀ p, W.place w.1 = some p → p.localId < p.param.shape.getD 0 0 ∧
    (p.part w.2).shape.getD 0 0 ≤ rowCount p.param.shape p.expert.shardId ∧
    (p.part w.2).shape.getD 1 0 ≤ p.param.shape.getD 2 0

/-- What the sender makes of a weight. -/
def Worker.sent (W : Worker δ) (w : NamedWeight δ ν) : Option (NamedWeight δ ν) :=
  if W.isMissing w.1 then none
  else match parseHfExpertWeight w.1 with
    | none => some w
    | some _ => (W.place w.1).map fun p ↦ (w.1, p.part w.2)

/-- What is left of a weight to the loader of the model. -/
def Worker.left (W : Worker δ) (w : NamedWeight δ ν) : Option (NamedWeight δ ν) :=
  (W.sent w).filter fun _ ↦ (W.place w.1).all fun p ↦ ¬ p.Direct w.2

theorem Worker.place_spec {name : List Char} {p : Place δ} (h : W.place name = some p) :
    parseHfExpertWeight name = some p.expert ∧
      Dict.get W.namedParameters p.expert.parameterName = some p.param ∧
      p.param.owner = some p.owner ∧ p.owner.numberOf p.expert.expertId = some p.localId ∧
      W.isMissing name = false := by
  obtain ⟨expert, hexpert, h⟩ := Option.bind_eq_some_iff.mp h
  obtain ⟨param, hparam, h⟩ := Option.bind_eq_some_iff.mp h
  obtain ⟨owner, howner, h⟩ := Option.bind_eq_some_iff.mp h
  obtain ⟨localId, hlocal, h⟩ := Option.bind_eq_some_iff.mp h
  split_ifs at h with hmissing
  obtain rfl := Option.some.inj h
  exact ⟨hexpert, hparam, howner, hlocal, by simpa using hmissing⟩

section Layout

variable {layout : WeightLayout} {name : List Char}

theorem mem_localExpertIds {expertMap : List ℤ} {e : ℕ} :
    e ∈ localExpertIds expertMap ↔ ∃ l, expertMap[e]? = some l ∧ 0 ≤ l := by
  simp only [localExpertIds, List.mem_map, List.mem_filter, decide_eq_true_eq]
  constructor
  · rintro ⟨x, ⟨hx, hl⟩, rfl⟩
    exact ⟨x.1, List.mem_zipIdx_iff_getElem?.mp hx, hl⟩
  · rintro ⟨l, hl, hpos⟩
    exact ⟨(l, e), ⟨List.mem_zipIdx_iff_getElem?.mpr hl, hpos⟩, rfl⟩

theorem Owner.expertIds_spec {owner : Owner} {ids : Option (List ℕ)}
    (h : owner.expertIds name = .ok ids) (e : ℕ) :
    ids.any (e ∉ ·) = (owner.numberOf e).isNone := by
  unfold Owner.expertIds at h
  unfold Owner.numberOf
  by_cases hep : owner.useEp = true
  · rw [if_neg (by simp [hep])] at h
    split_ifs at h with hbalance
    cases hmap : owner.expertMap with
    | none =>
      rw [hmap] at h
      cases h
    | some expertMap =>
      rw [hmap] at h
      dsimp only at h
      split_ifs at h with hlogical
      obtain rfl := Except.ok.inj h
      rw [if_pos hep]
      simp only [Option.any_some, Option.getD_some]
      set known := expertMap.take (owner.numLogicalExperts.getD expertMap.length)
      cases hget : known[e]? with
      | none => simp [mem_localExpertIds, hget]
      | some l => by_cases hl : 0 ≤ l <;> simp [mem_localExpertIds, hget, hl]
  · rw [if_pos hep] at h
    obtain rfl := Except.ok.inj h
    rw [if_neg hep]
    rfl

theorem paramLayout_spec {param : Param δ} {l : ExpertParamLayout}
    (h : paramLayout name param = .ok l) : ∃ owner ids, param.owner = some owner ∧
      param.shape.length = 3 ∧ owner.expertIds name = .ok ids ∧
      l = ⟨owner.tpRank, owner.tpSize, ids⟩ := by
  unfold paramLayout at h
  split_ifs at h
  cases howner : param.owner with
  | none =>
    rw [howner] at h
    cases h
  | some owner =>
    rw [howner] at h
    obtain ⟨u, hstorage, h⟩ := bind_eq_ok h
    have hshape : param.shape.length = 3 := by
      by_contra hne
      rw [validateExpertStorage, if_pos (.inl hne)] at hstorage
      cases hstorage
    split_ifs at h with hbackend
    · cases h
    · obtain ⟨ids, hids, h⟩ := bind_eq_ok h
      exact ⟨owner, ids, rfl, hshape, hids, (Except.ok.inj h).symm⟩

/-- The layout has every parameter of experts, and no other. -/
theorem checkpointEngineWeightLayout_spec (h : checkpointEngineWeightLayout W = .ok layout) :
    layout.missingWeightPrefixes = W.missingLayerNames ∧
      ∀ name, isExpertParameter name = true →
        (∀ param, Dict.get W.namedParameters name = some param →
          ∃ l, Dict.get layout.expertParams name = some l ∧ paramLayout name param = .ok l) ∧
        (Dict.get W.namedParameters name = none → Dict.get layout.expertParams name = none) := by
  obtain ⟨expertParams, hparams, h⟩ := bind_eq_ok h
  split_ifs at h
  obtain rfl := Except.ok.inj h
  refine ⟨rfl, fun name hname ↦ ?_⟩
  have hall := (forall₂_of_mapM_ok hparams).imp fun item item' hitem ↦
    show item.1 = item'.1 ∧ paramLayout item.1 item.2 = .ok item'.2 by
      cases hl : paramLayout item.1 item.2 with
      | error e =>
        rw [hl] at hitem
        cases hitem
      | ok l =>
        rw [hl] at hitem
        obtain rfl := Except.ok.inj hitem
        exact ⟨rfl, rfl⟩
  have hget := Dict.get_of_forall₂ (k := name)
    (R := fun name param l ↦ paramLayout name param = .ok l) hall
  rw [Dict.get_filter, if_pos hname] at hget
  exact hget

end Layout

section Selection

variable {layout : WeightLayout} {w : NamedWeight δ ν} {p : Place δ}

theorem Place.shape_part {t : Dense δ ν} (hdim : p.expert.tpShardDim < t.shape.length) :
    (p.part t).shape = t.shape.modify p.expert.tpShardDim (· / p.owner.tpSize) := by
  have hget : t.shape.getD p.expert.tpShardDim 0 = t.shape[p.expert.tpShardDim] :=
    List.getD_eq_getElem _ _ hdim
  rw [Place.part, hget]
  exact (List.modify_eq_set_get (· / p.owner.tpSize) hdim).symm

theorem Place.part_of_whole {t : Dense δ ν} (hone : p.owner.tpSize = 1)
    (htp : p.owner.tpRank < p.owner.tpSize) (hdim : p.expert.tpShardDim < t.shape.length) :
    p.part t = t := by
  have hrank : p.owner.tpRank = 0 := by omega
  have hdata : (fun i ↦ t.data (i.modify p.expert.tpShardDim (· + p.start t))) = t.data := by
    funext i
    rw [Place.start, hrank, Nat.zero_mul]
    exact congrArg t.data (List.modify_id ..)
  rw [Place.part, hdata, hone, Nat.div_one, List.getD_eq_getElem _ _ hdim, List.set_getElem_self]

theorem selectHfWeightForVllmTarget_eq (hlayout : checkpointEngineWeightLayout W = .ok layout)
    (hcut : ∀ p, W.place w.1 = some p → w.2.shape.length = 2 ∧ p.owner.tpRank < p.owner.tpSize ∧
      p.owner.tpSize ∣ w.2.shape.getD p.expert.tpShardDim 0) :
    selectHfWeightForVllmTarget layout w.1 w.2 = .ok ((W.sent w).map Prod.snd) := by
  obtain ⟨hmissing, hparams⟩ := checkpointEngineWeightLayout_spec hlayout
  rw [selectHfWeightForVllmTarget, Worker.sent, hmissing]
  by_cases hgone : W.isMissing w.1 = true
  · rw [if_pos hgone]
    exact if_pos hgone
  rw [if_neg hgone]
  refine (if_neg hgone).trans ?_
  cases hparse : parseHfExpertWeight w.1 with
  | none => rfl
  | some expert =>
    have hname := (parseHfExpertWeight_spec hparse).1
    obtain ⟨hthere, hnot⟩ := hparams _ hname
    dsimp only
    cases hparam : Dict.get W.namedParameters expert.parameterName with
    | none =>
      rw [hnot hparam, Worker.place, hparse]
      simp [hparam]
    | some param =>
      obtain ⟨l, hl, hspec⟩ := hthere param hparam
      obtain ⟨owner, ids, howner, -, hids, rfl⟩ := paramLayout_spec hspec
      rw [hl]
      dsimp only
      rw [owner.expertIds_spec hids]
      cases hlocal : owner.numberOf expert.expertId with
      | none =>
        rw [Worker.place, hparse]
        simp [hparam, howner, hlocal]
      | some localId =>
        have hplace : W.place w.1 = some ⟨expert, param, owner, localId⟩ := by
          rw [Worker.place, hparse]
          simp [hparam, howner, hlocal, hgone]
        obtain ⟨hmatrix, htp, hdvd⟩ := hcut _ hplace
        have hdim : expert.tpShardDim < w.2.shape.length := by
          rw [hmatrix, (parseHfExpertWeight_spec hparse).2.2]
          split_ifs <;> omega
        rw [hplace]
        refine (if_neg (by simp)).trans ?_
        dsimp only at htp hdvd ⊢
        by_cases hone : owner.tpSize = 1
        · rw [if_pos hone]
          refine congrArg (fun t ↦ Except.ok (some t)) (Place.part_of_whole hone htp hdim).symm
        · rw [if_neg hone, List.getElem?_eq_getElem hdim]
          have hsize : w.2.shape.getD expert.tpShardDim 0 = w.2.shape[expert.tpShardDim] :=
            List.getD_eq_getElem _ _ hdim
          rw [hsize] at hdvd
          dsimp only
          rw [if_neg (by omega), if_neg (by simpa using Nat.mod_eq_zero_of_dvd hdvd)]
          have hle : owner.tpRank * (w.2.shape[expert.tpShardDim] / owner.tpSize) +
              w.2.shape[expert.tpShardDim] / owner.tpSize ≤ w.2.shape[expert.tpShardDim] := by
            have hmul := Nat.mul_le_mul_right (w.2.shape[expert.tpShardDim] / owner.tpSize) htp
            rw [Nat.mul_div_cancel' hdvd, Nat.succ_mul] at hmul
            exact hmul
          rw [Dense.narrow, if_pos ⟨hdim, hsize ▸ hle⟩]
          simp only [Option.map_some, Place.part, Place.start, hsize]

end Selection

theorem Worker.sent_cases {w w' : NamedWeight δ ν} (h : W.sent w = some w') :
    parseHfExpertWeight w.1 = none ∧ w' = w ∨
      ∃ p, W.place w.1 = some p ∧ w' = (w.1, p.part w.2) := by
  unfold Worker.sent at h
  split_ifs at h
  cases hparse : parseHfExpertWeight w.1 with
  | none =>
    rw [hparse] at h
    exact .inl ⟨rfl, (Option.some.inj h).symm⟩
  | some expert =>
    rw [hparse] at h
    obtain ⟨p, hp, rfl⟩ := Option.map_eq_some_iff.mp h
    exact .inr ⟨p, hp, rfl⟩

theorem Worker.place_of_parse_none {name : List Char} (h : parseHfExpertWeight name = none) :
    W.place name = none := by
  rw [Worker.place, h]
  rfl

section Refit

variable {layout : WeightLayout} {weights : List (NamedWeight δ ν)}

def Worker.fate (W : Worker δ) (w : NamedWeight δ ν) : Option (Landing δ ν) :=
  (W.place w.1).bind fun p ↦
    if p.owner.useEp = true ∨ isShardedRefitWeight W w.1 w.2 = true then some (p.landing w.2)
    else none

namespace Loadable

variable {w : NamedWeight δ ν} {p : Place δ}

theorem isSharded_part (h : Loadable W weights) (hw : w ∈ weights) (hp : W.place w.1 = some p) :
    isShardedRefitWeight W w.1 (p.part w.2) = decide ((p.part w.2).shape ≠ w.2.shape) := by
  obtain ⟨d, hinfo⟩ := h.info w hw p hp
  rw [isShardedRefitWeight, (Worker.place_spec hp).1, hinfo]
  simp only [ne_comm]

theorem fate_part (h : Loadable W weights) (hw : w ∈ weights) (hp : W.place w.1 = some p) :
    W.fate (w.1, p.part w.2) = if p.Direct w.2 then some (p.landing (p.part w.2)) else none := by
  have hiff : p.owner.useEp = true ∨ isShardedRefitWeight W w.1 (p.part w.2) = true ↔
      p.Direct w.2 := by
    rw [h.isSharded_part hw hp, decide_eq_true_eq, Place.Direct]
  rw [Worker.fate, hp, Option.bind_some]
  exact if_congr hiff rfl rfl

theorem dim_lt (h : Loadable W weights) (hw : w ∈ weights) (hp : W.place w.1 = some p) :
    p.expert.tpShardDim < w.2.shape.length := by
  rw [h.matrix w hw p hp, (parseHfExpertWeight_spec (Worker.place_spec hp).1).2.2]
  split_ifs <;> omega

theorem rank_eq (hlayout : checkpointEngineWeightLayout W = .ok layout)
    (hp : W.place w.1 = some p) : p.param.shape.length = 3 := by
  obtain ⟨hparse, hparam, -⟩ := Worker.place_spec hp
  obtain ⟨l, -, hl⟩ := ((checkpointEngineWeightLayout_spec hlayout).2 _
    (parseHfExpertWeight_spec hparse).1).1 _ hparam
  exact (paramLayout_spec hl).choose_spec.choose_spec.2.1

theorem destined_part (h : Loadable W weights) (hlayout : checkpointEngineWeightLayout W = .ok layout)
    (hw : w ∈ weights) (hp : W.place w.1 = some p) :
    destined W w.1 (p.part w.2) = .ok (if p.Direct w.2 then
      .placed p.expert.parameterName p.expert.shardId p.localId else .remaining) := by
  obtain ⟨hparse, hparam, howner, -, -⟩ := Worker.place_spec hp
  obtain ⟨d, hinfo⟩ := h.info w hw p hp
  have hdim := h.dim_lt hw hp
  have htp := (h.shards w hw p hp).1
  have hany : p.param.owner.any (·.useEp) = p.owner.useEp := by
    rw [howner]
    rfl
  unfold destined
  simp only [hparse, hparam, hany, h.isSharded_part hw hp]
  by_cases hd : p.Direct w.2
  · have hcond : ¬ (decide ((p.part w.2).shape ≠ w.2.shape) = false ∧ p.owner.useEp = false) := by
      rintro ⟨hsame, hep⟩
      rcases hd with hd | hd
      · rw [hd] at hep
        cases hep
      · exact absurd hd (by simpa using hsame)
    have hrank := rank_eq hlayout hp
    have hmatrix : (p.part w.2).shape.length = 2 := by
      rw [Place.part, List.length_set]
      exact h.matrix w hw p hp
    rw [if_neg hcond, howner]
    dsimp only
    rw [if_neg (by omega), hinfo]
    dsimp only
    rw [if_neg (by omega), if_neg (not_not.mpr (Place.shape_part hdim)), h.mapped w hw p hp,
      if_neg (by omega), if_pos hd]
  · have hcond : decide ((p.part w.2).shape ≠ w.2.shape) = false ∧ p.owner.useEp = false := by
      obtain ⟨hep, hsame⟩ := not_or.mp hd
      exact ⟨by simpa using hsame, by simpa using hep⟩
    rw [if_pos hcond, if_neg hd]

theorem compatible (h : Loadable W weights) {w' : NamedWeight δ ν} {p' : Place δ} (hw : w ∈ weights)
    (hw' : w' ∈ weights) (hp : W.place w.1 = some p) (hp' : W.place w'.1 = some p')
    (hne : parseHfExpertWeight w.1 = parseHfExpertWeight w'.1 → parseHfExpertWeight w.1 = none) :
    (p.landing (p.part w.2)).Compatible (p'.landing (p'.part w'.2)) := by
  obtain ⟨hparse, hparam, howner, -, -⟩ := Worker.place_spec hp
  obtain ⟨hparse', hparam', howner', -, -⟩ := Worker.place_spec hp'
  have hdim := (parseHfExpertWeight_spec hparse).2.2
  have hdim' := (parseHfExpertWeight_spec hparse').2.2
  refine ⟨fun hslot ↦ ?_, fun hname hshard ↦ ?_⟩
  · obtain ⟨hkey, hlocal⟩ := Prod.mk.inj hslot
    obtain ⟨hname, hshard⟩ := Prod.mk.inj hkey
    have hid := h.injective w hw w' hw' p p' hp hp' hname hlocal
    change p.expert.shardId = p'.expert.shardId at hshard
    have hexpert : p.expert = p'.expert := by
      have hd : p.expert.tpShardDim = p'.expert.tpShardDim := by rw [hdim, hdim', hshard]
      exact HfExpertWeight.ext hname hid hshard hd
    have hnone := hne (by rw [hparse, hparse', hexpert])
    rw [hparse] at hnone
    cases hnone
  · change p.expert.parameterName = p'.expert.parameterName at hname
    change p.expert.shardId = p'.expert.shardId at hshard
    obtain ⟨hdtype, hshape⟩ := h.alike w hw w' hw' p p' hp hp' hname hshard
    have howners : p.owner = p'.owner := by
      rw [hname, hparam'] at hparam
      rw [← Option.some.inj hparam, howner'] at howner
      exact (Option.some.inj howner).symm
    refine ⟨hdtype, ?_⟩
    change (p.part w.2).shape = (p'.part w'.2).shape
    simp only [Place.part, hdim, hdim', hshard, hshape, howners]

theorem landing_fits (h : Loadable W weights) (hlayout : checkpointEngineWeightLayout W = .ok layout)
    (hw : w ∈ weights) (hp : W.place w.1 = some p) : (p.landing (p.part w.2)).Fits W := by
  obtain ⟨hparse, hparam, -, -, -⟩ := Worker.place_spec hp
  obtain ⟨hlocal, hrows, hcols⟩ := h.fits w hw p hp
  refine ⟨hparam, (parseHfExpertWeight_spec hparse).2.1, rank_eq hlayout hp, hlocal, ?_, hrows, hcols⟩
  exact (List.length_set ..).trans (h.matrix w hw p hp)

/-- The receiver has a use for, or passes on, whatever the sender has selected. -/
theorem settled (h : Loadable W weights) (hlayout : checkpointEngineWeightLayout W = .ok layout) :
    Settled W W.fate (weights.filterMap W.sent) := by
  refine ⟨fun x hx hfate ↦ ?_, fun x hx y hfate ↦ ?_, ?_⟩
  · obtain ⟨w, hw, hsent⟩ := List.mem_filterMap.mp hx
    rcases Worker.sent_cases hsent with ⟨hparse, rfl⟩ | ⟨p, hp, rfl⟩
    · rw [destined, hparse]
    · rw [h.fate_part hw hp] at hfate
      rw [h.destined_part hlayout hw hp, if_neg fun hd ↦ by rw [if_pos hd] at hfate; cases hfate]
  · obtain ⟨w, hw, hsent⟩ := List.mem_filterMap.mp hx
    rcases Worker.sent_cases hsent with ⟨hparse, rfl⟩ | ⟨p, hp, rfl⟩
    · rw [Worker.fate, Worker.place_of_parse_none hparse] at hfate
      cases hfate
    · rw [h.fate_part hw hp] at hfate
      split_ifs at hfate with hd
      obtain rfl := Option.some.inj hfate
      refine ⟨rfl, h.landing_fits hlayout hw hp, ?_⟩
      rw [h.destined_part hlayout hw hp, if_pos hd]
      rfl
  · rw [List.filterMap_filterMap, List.pairwise_filterMap]
    refine h.distinct.imp_of_mem fun {w w'} hw hw' hne y hy y' hy' ↦ ?_
    obtain ⟨x, hsent, hfate⟩ := Option.bind_eq_some_iff.mp hy
    obtain ⟨x', hsent', hfate'⟩ := Option.bind_eq_some_iff.mp hy'
    rcases Worker.sent_cases hsent with ⟨hparse, rfl⟩ | ⟨p, hp, rfl⟩
    · rw [Worker.fate, Worker.place_of_parse_none hparse] at hfate
      cases hfate
    rcases Worker.sent_cases hsent' with ⟨hparse, rfl⟩ | ⟨p', hp', rfl⟩
    · rw [Worker.fate, Worker.place_of_parse_none hparse] at hfate'
      cases hfate'
    rw [h.fate_part hw hp] at hfate
    rw [h.fate_part hw' hp'] at hfate'
    split_ifs at hfate
    split_ifs at hfate'
    obtain rfl := Option.some.inj hfate
    obtain rfl := Option.some.inj hfate'
    exact h.compatible hw hw' hp hp' hne

theorem selectedWeights_eq (h : Loadable W weights)
    (hlayout : checkpointEngineWeightLayout W = .ok layout) :
    selectedWeights layout weights = .ok (weights.filterMap W.sent) := by
  have hall : (weights.mapM fun w ↦ (selectHfWeightForVllmTarget layout w.1 w.2).map
      (·.map fun t ↦ (w.1, t))) = .ok (weights.map W.sent) := by
    refine Blocks.mapM_pure_of_forall fun w hw ↦ ?_
    rw [selectHfWeightForVllmTarget_eq hlayout fun p hp ↦
      ⟨h.matrix w hw p hp, h.shards w hw p hp⟩]
    refine congrArg Except.ok ?_
    cases hsent : W.sent w with
    | none => rfl
    | some x =>
      rcases Worker.sent_cases hsent with ⟨-, rfl⟩ | ⟨p, -, rfl⟩ <;> rfl
  rw [selectedWeights, hall]
  refine congrArg Except.ok ?_
  simp only [List.reduceOption, List.filterMap_map]
  rfl

theorem left_eq (h : Loadable W weights) :
    (weights.filterMap W.sent).filter (fun x ↦ (W.fate x).isNone) = weights.filterMap W.left := by
  rw [List.filter_filterMap]
  refine List.filterMap_congr fun w hw ↦ ?_
  rw [Worker.left]
  cases hsent : W.sent w with
  | none => rfl
  | some x =>
    rcases Worker.sent_cases hsent with ⟨hparse, rfl⟩ | ⟨p, hp, rfl⟩
    · simp [Option.filter, Worker.fate, Worker.place_of_parse_none hparse]
    · by_cases hd : p.Direct w.2 <;> simp [Option.filter, h.fate_part hw hp, hp, hd]

end Loadable

/-- A refit of the experts at a rank. Whatever the batches, every part that the rank writes itself
is at the start of its shard of its expert, no two parts meet, no other entry changes, and the
loader of the model is left with the other weights that the rank has a use for. -/
theorem refit_places_experts [Zero ν] (E : ElementTypes δ ν) (hW : W.isFp8Model = false)
    (hlayout : checkpointEngineWeightLayout W = .ok layout) (h : Loadable W weights) :
    ∃ selected, selectedWeights layout weights = .ok selected ∧
      ∀ batches : List (List (NamedWeight δ ν)), batches.flatten.Perm selected → ∀ m : Memory ν,
        ∃ m' rest, loadBatches W E m batches = .ok (m', rest) ∧
          (∀ w ∈ weights, ∀ p, W.place w.1 = some p → p.Direct w.2 → ∀ i j,
            i < (p.part w.2).shape.getD 0 0 → j < (p.part w.2).shape.getD 1 0 →
              m' (p.expert.parameterName,
                [p.localId, rowOffset p.param.shape p.expert.shardId + i, j]) =
                  E.cast w.2.dtype p.param.dtype ((p.part w.2).data [i, j])) ∧
          (weights.Pairwise fun w w' ↦ ∀ p p', W.place w.1 = some p → W.place w'.1 = some p' →
            ∀ cell, (p.landing (p.part w.2)).Covers cell →
              ¬ (p'.landing (p'.part w'.2)).Covers cell) ∧
          (∀ cell, (∀ w ∈ weights, ∀ p, W.place w.1 = some p → p.Direct w.2 →
            ¬ (p.landing (p.part w.2)).Covers cell) → m' cell = m cell) ∧
          List.Forall₂ List.Sublist rest batches ∧
          rest.flatten.Perm (weights.filterMap W.left) := by
  have hsettled := h.settled hlayout
  refine ⟨_, h.selectedWeights_eq hlayout, fun batches hb m ↦ ⟨_, _,
    (hsettled.perm hb.symm).loadBatches_eq E hW m, ?_, ?_, ?_, ?_, ?_⟩⟩
  · intro w hw p hp hd i j hi hj
    have hx : (w.1, p.part w.2) ∈ weights.filterMap W.sent := by
      refine List.mem_filterMap.mpr ⟨w, hw, ?_⟩
      obtain ⟨hparse, -, -, -, hmissing⟩ := Worker.place_spec hp
      rw [Worker.sent, hmissing, if_neg (by simp), hparse]
      simp [hp]
    have hland : p.landing (p.part w.2) ∈ batches.flatten.filterMap W.fate :=
      List.mem_filterMap.mpr ⟨_, hb.mem_iff.mpr hx, by rw [h.fate_part hw hp, if_pos hd]⟩
    refine applyAll_of_mem (hsettled.perm hb.symm |>.apart E) (List.mem_map_of_mem hland) ?_
    rw [Landing.write, sliceWrite, if_pos]
    · simp [Place.landing, sliceBox, toLocal, Place.part]
    · refine ⟨rfl, .cons ⟨le_rfl, Nat.lt_succ_self _⟩ (.cons ⟨?_, ?_⟩ (.cons ⟨?_, ?_⟩ .nil))⟩
      · exact Nat.le_add_right _ _
      · exact Nat.add_lt_add_left hi _
      · exact Nat.zero_le _
      · exact hj
  · refine h.distinct.imp_of_mem fun {w w'} hw hw' hne p p' hp hp' cell hcell ↦ ?_
    exact Landing.not_meet (h.landing_fits hlayout hw hp) (h.landing_fits hlayout hw' hp')
      (h.compatible hw hw' hp hp' hne).slot_ne hcell
  · intro cell hcell
    refine applyAll_of_forall_none fun x hx ↦ ?_
    obtain ⟨y, hy, rfl⟩ := List.mem_map.mp hx
    obtain ⟨x, hx, hfate⟩ := List.mem_filterMap.mp hy
    obtain ⟨w, hw, hsent⟩ := List.mem_filterMap.mp (hb.mem_iff.mp hx)
    rcases Worker.sent_cases hsent with ⟨hparse, rfl⟩ | ⟨p, hp, rfl⟩
    · rw [Worker.fate, Worker.place_of_parse_none hparse] at hfate
      cases hfate
    · rw [h.fate_part hw hp] at hfate
      split_ifs at hfate with hd
      obtain rfl := Option.some.inj hfate
      exact sliceWrite_eq_none E (hcell w hw p hp hd)
  · exact List.forall₂_map_left_iff.mpr (List.forall₂_same.mpr fun _ _ ↦ List.filter_sublist)
  · rw [← List.filter_flatten, ← h.left_eq]
    exact hb.filter _

def secondRank : Worker Unit where
  isFp8Model := false
  namedParameters := [("m.mlp.experts.routed_experts.w13_weight".toList, ⟨(), [1, 4, 2], false,
    some ⟨false, some "TRITON".toList, false, false, none, none, none, 1, 2, none⟩⟩)]
  missingLayerNames := []
  stateDictInfo := some [(hfExpertName ['m'] 0 "gate_proj".toList, ([4, 2], ()))]

def gateAndNorm : List (NamedWeight Unit ℤ) :=
  [(hfExpertName ['m'] 0 "gate_proj".toList, ⟨(), [4, 2], fun i ↦ 10 * i.getD 0 0 + i.getD 1 0⟩),
    ("norm.weight".toList, ⟨(), [3], fun _ ↦ 1⟩)]

theorem place_gateAndNorm {w : NamedWeight Unit ℤ} {p : Place Unit} (hw : w ∈ gateAndNorm)
    (hp : secondRank.place w.1 = some p) :
    w = (hfExpertName ['m'] 0 "gate_proj".toList,
        ⟨(), [4, 2], fun i ↦ 10 * i.getD 0 0 + i.getD 1 0⟩) ∧
      p = ⟨⟨"m.mlp.experts.routed_experts.w13_weight".toList, 0, .w1, 0⟩, ⟨(), [1, 4, 2], false,
        some ⟨false, some "TRITON".toList, false, false, none, none, none, 1, 2, none⟩⟩,
        ⟨false, some "TRITON".toList, false, false, none, none, none, 1, 2, none⟩, 0⟩ := by
  rcases List.mem_pair.mp hw with rfl | rfl
  · exact ⟨rfl, (Option.some.inj hp).symm⟩
  · cases hp

theorem loadable_gateAndNorm : Loadable secondRank gateAndNorm := by
  refine ⟨by decide, ?_, ?_, ?_, ?_, ?_, ?_, ?_⟩
  all_goals
    intro w hw
  · intro p hp
    obtain ⟨rfl, rfl⟩ := place_gateAndNorm hw hp
    exact ⟨(), rfl⟩
  · intro p hp
    obtain ⟨rfl, rfl⟩ := place_gateAndNorm hw hp
    rfl
  · intro p hp
    obtain ⟨rfl, rfl⟩ := place_gateAndNorm hw hp
    decide
  · intro p hp
    obtain ⟨rfl, rfl⟩ := place_gateAndNorm hw hp
    rfl
  · intro w' hw' p p' hp hp' _ _
    obtain ⟨rfl, rfl⟩ := place_gateAndNorm hw hp
    obtain ⟨rfl, rfl⟩ := place_gateAndNorm hw' hp'
    rfl
  · intro w' hw' p p' hp hp' _ _
    obtain ⟨rfl, rfl⟩ := place_gateAndNorm hw hp
    obtain ⟨rfl, rfl⟩ := place_gateAndNorm hw' hp'
    exact ⟨rfl, rfl⟩
  · intro p hp
    obtain ⟨rfl, rfl⟩ := place_gateAndNorm hw hp
    decide

/-- The second half of the rows of the gate comes to the start of the expert, after a batch for
each weight and the last of them first. -/
theorem refit_places_experts_secondRank : ∃ selected m' rest,
    selectedWeights ⟨[("m.mlp.experts.routed_experts.w13_weight".toList, ⟨1, 2, none⟩)], []⟩
      gateAndNorm = .ok selected ∧
    loadBatches secondRank integersOnly (fun _ ↦ 0) (selected.reverse.map ([·])) = .ok (m', rest) ∧
    m' ("m.mlp.experts.routed_experts.w13_weight".toList, [0, 1, 1]) = 31 := by
  have hlayout : checkpointEngineWeightLayout secondRank =
      .ok ⟨[("m.mlp.experts.routed_experts.w13_weight".toList, ⟨1, 2, none⟩)], []⟩ := by decide
  obtain ⟨selected, hselected, hload⟩ :=
    refit_places_experts integersOnly rfl hlayout loadable_gateAndNorm
  have hbatches : (selected.reverse.map ([·])).flatten.Perm selected := by
    rw [← List.flatMap_def, List.flatMap_singleton']
    exact selected.reverse_perm
  obtain ⟨m', rest, hrun, hplaced, -⟩ := hload _ hbatches fun _ ↦ 0
  refine ⟨selected, m', rest, hselected, hrun, ?_⟩
  exact hplaced _ List.mem_cons_self _ rfl (.inr (by decide)) 1 1 (by decide) (by decide)

end Refit

end NemoRL.Generation.ExpertRefit
