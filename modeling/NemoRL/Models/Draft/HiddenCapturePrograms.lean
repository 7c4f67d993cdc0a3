import NemoRL.Models.Draft.HiddenCapture

namespace NemoRL.Models.Draft.HiddenCapture

open Foundations Foundations.Channels Foundations.Tensors

section Programs

variable {ν : Type} [Zero ν] {L : Layout} {p : Fin L.ppSize} {E : ElementTypes Dtype ν}
  {h : List (Event ℕ (Message ν))} {t : Tensors.Tensor Dtype ν} {m : Message ν} {r : ℕ}

theorem replays_bind_iff {R S : Type} {x : Capture ν R} {f : R → Capture ν S} {c : S} :
    Replays (x >>= f) h (.done c) ↔
      ∃ h₁ h₂ a, h = h₁ ++ h₂ ∧ Replays x h₁ (.done a) ∧ Replays (f a) h₂ (.done c) := by
  constructor
  · exact Replays.of_bind
  · rintro ⟨h₁, h₂, a, rfl, hx, hf⟩
    exact hx.bind hf

theorem replays_done_iff {R : Type} {a c : R} :
    Replays (.done a : Capture ν R) h (.done c) ↔ h = [] ∧ c = a := by
  constructor
  · intro hr
    cases hr
    exact ⟨rfl, rfl⟩
  · rintro ⟨rfl, rfl⟩
    exact .nil _

theorem not_replays_fail {R : Type} {c : R} : ¬ Replays (.fail : Capture ν R) h (.done c) := by
  intro hr
  cases hr

/-- A global rank that stage `p` may name as its peer. -/
def Layout.Peer (L : Layout) (p : Fin L.ppSize) (r : ℕ) : Prop :=
  (∃ q, L.group q = r) ∧ r ≠ L.group p

theorem replays_distSend {a : Unit} :
    Replays (L.distSend p m r) h (.done a) ↔ h = [.sent r m] ∧ L.Peer p r := by
  rw [Layout.distSend]
  split_ifs with hpeer
  · constructor
    · intro hr
      cases hr with
      | sent hr =>
        obtain ⟨rfl, -⟩ := replays_done_iff.mp hr
        exact ⟨rfl, hpeer⟩
    · rintro ⟨rfl, -⟩
      exact (Replays.nil _).sent
  · exact ⟨fun hr ↦ absurd hr not_replays_fail, fun hr ↦ absurd hr.2 hpeer⟩

theorem replays_distRecv :
    Replays (L.distRecv p r) h (.done m) ↔ h = [.received r m] ∧ L.Peer p r := by
  rw [Layout.distRecv]
  split_ifs with hpeer
  · constructor
    · intro hr
      cases hr with
      | received hr =>
        obtain ⟨rfl, rfl⟩ := replays_done_iff.mp hr
        exact ⟨rfl, hpeer⟩
    · rintro ⟨rfl, -⟩
      exact (Replays.nil _).received
  · exact ⟨fun hr ↦ absurd hr not_replays_fail, fun hr ↦ absurd hr.2 hpeer⟩

/-- A tensor of three dimensions and of a type that has a code. -/
def Sendable (t : Tensors.Tensor Dtype ν) : Prop :=
  t.shape.length = 3 ∧ (Dict.get dtypeToCode t.dtype).isSome

def framed (t : Tensors.Tensor Dtype ν) : List (Message ν) :=
  [.metadata (t.shape.getD 0 0) (t.shape.getD 1 0) (t.shape.getD 2 0)
    ((Dict.get dtypeToCode t.dtype).getD 0), .payload t]

theorem replays_sendTensor (ht : Sendable t) {a : Unit} :
    Replays (L.sendTensor p t r) h (.done a) ↔
      h = (framed t).map (.sent r) ∧ L.Peer p r := by
  obtain ⟨hlen, hcode⟩ := ht
  obtain ⟨code, hcode⟩ := Option.isSome_iff_exists.mp hcode
  obtain ⟨s, b, k, hshape⟩ := List.length_eq_three.mp hlen
  rw [Layout.sendTensor, framed, hcode, hshape]
  simp only [replays_bind_iff, replays_distSend]
  constructor
  · rintro ⟨_, _, _, rfl, ⟨rfl, hpeer⟩, rfl, -⟩
    exact ⟨rfl, hpeer⟩
  · rintro ⟨rfl, hpeer⟩
    exact ⟨_, _, (), rfl, ⟨rfl, hpeer⟩, rfl, hpeer⟩

theorem codeToDtype_iff {code : ℕ} {dtype : Dtype} :
    Dict.get codeToDtype code = some dtype ↔ Dict.get dtypeToCode dtype = some code := by
  refine ⟨fun hget ↦ ?_, codeToDtype_of_dtypeToCode⟩
  obtain hmem := Dict.mem_of_get hget
  rcases List.mem_cons.mp hmem with heq | hmem
  · cases heq; rfl
  rcases List.mem_cons.mp hmem with heq | hmem
  · cases heq; rfl
  obtain heq := List.mem_singleton.mp hmem
  cases heq; rfl

theorem replays_recvTensor :
    Replays (L.recvTensor p r) h (.done t) ↔
      h = (framed t).map (.received r) ∧ Sendable t ∧ L.Peer p r := by
  simp only [Layout.recvTensor, replays_bind_iff, replays_distRecv]
  constructor
  · rintro ⟨_, h₂, m, rfl, ⟨rfl, hpeer⟩, hr⟩
    cases m with
    | payload _ => exact absurd hr not_replays_fail
    | metadata s b k code =>
      cases hdtype : Dict.get codeToDtype code with
      | none =>
        simp only [hdtype] at hr
        exact absurd hr not_replays_fail
      | some dtype =>
        simp only [hdtype, replays_bind_iff, replays_distRecv] at hr
        obtain ⟨_, h₃, m', rfl, ⟨rfl, -⟩, hr⟩ := hr
        cases m' with
        | metadata => exact absurd hr not_replays_fail
        | payload t' =>
          rw [Layout.receivePayload] at hr
          split_ifs at hr with hbuffer
          · obtain ⟨rfl, rfl⟩ := replays_done_iff.mp hr
            obtain ⟨hshape, rfl⟩ := hbuffer
            have hcode := codeToDtype_iff.mp hdtype
            refine ⟨?_, ⟨by rw [hshape]; rfl, by rw [hcode]; rfl⟩, hpeer⟩
            rw [framed, hcode, hshape]
            rfl
          · exact absurd hr not_replays_fail
  · rintro ⟨rfl, ⟨hlen, hcode⟩, hpeer⟩
    obtain ⟨code, hcode⟩ := Option.isSome_iff_exists.mp hcode
    obtain ⟨s, b, k, hshape⟩ := List.length_eq_three.mp hlen
    refine ⟨[_], _, _, rfl, ⟨rfl, hpeer⟩, ?_⟩
    simp only [hcode, hshape, List.getD_cons_zero, List.getD_cons_succ, Option.getD_some,
      codeToDtype_of_dtypeToCode hcode, replays_bind_iff, replays_distRecv]
    refine ⟨[_], [], _, rfl, ⟨rfl, hpeer⟩, ?_⟩
    rw [Layout.receivePayload, if_pos ⟨hshape, rfl⟩]
    exact .nil _

theorem replays_concatenated {chunks : List (Tensors.Tensor Dtype ν)}
    {e : Option (Tensors.Tensor Dtype ν)}
    {states : CapturedStates ν} (hr : Replays (concatenated E chunks e) h (.done states)) :
    h = [] ∧ states = ⟨cat E (-1) chunks, e⟩ := by
  rw [concatenated] at hr
  split_ifs at hr with hempty
  · obtain rfl := List.isEmpty_iff.mp hempty
    exact replays_done_iff.mp hr
  · cases hcat : cat E (-1) chunks with
    | none =>
      rw [hcat] at hr
      exact absurd hr not_replays_fail
    | some hidden =>
      rw [hcat] at hr
      exact replays_done_iff.mp hr

end Programs

section Layouts

variable {L : Layout} {p q : Fin L.ppSize} {l : ℕ}

theorem Layout.stageOf_eq_some {r : ℕ} : L.stageOf r = some p ↔ L.group p = r := by
  constructor
  · intro hfind
    simpa using List.find?_some hfind
  · rintro rfl
    obtain ⟨q, hq⟩ := Option.isSome_iff_exists.mp (List.find?_isSome.mpr
      ⟨p, List.mem_finRange p, decide_eq_true rfl⟩ : (L.stageOf (L.group p)).isSome)
    have hgroup : L.group q = L.group p := by simpa using List.find?_some hq
    rw [Layout.stageOf, hq, L.group_injective hgroup]

theorem Layout.stageOf_eq_none {r : ℕ} : L.stageOf r = none ↔ ∀ p, L.group p ≠ r := by
  rw [Layout.stageOf, List.find?_eq_none]
  simp

theorem Layout.computeLayerOwnerMap_of_mem (hpp : L.ppSize ≠ 1) (hl : l ∈ L.stageLayers p) :
    L.computeLayerOwnerMap l = some p.val := by
  rw [Layout.computeLayerOwnerMap, if_neg hpp]
  obtain ⟨q, hq⟩ := Option.isSome_iff_exists.mp (List.find?_isSome.mpr
    ⟨p, List.mem_finRange p, decide_eq_true hl⟩ :
      ((List.finRange L.ppSize).find? fun q ↦ l ∈ L.stageLayers q).isSome)
  have hmem : l ∈ L.stageLayers q := by simpa using List.find?_some hq
  rw [hq, L.stageLayers_unique q p l hmem hl]
  rfl

theorem Layout.ownerRank_of_mem (hpp : L.ppSize ≠ 1) (hl : l ∈ L.stageLayers p) :
    L.ownerRankForGlobalLayer l = p.val := by
  rw [Layout.ownerRankForGlobalLayer, if_neg hpp, L.computeLayerOwnerMap_of_mem hpp hl]

theorem Layout.val_eq_ownerRank (hpp : L.ppSize ≠ 1) (hl : l ∈ L.auxLayerIndices) :
    p.val = L.ownerRankForGlobalLayer l ↔ l ∈ L.stageLayers p := by
  obtain ⟨q, hq⟩ := L.stageLayers_cover l (L.aux_lt l hl)
  rw [L.ownerRank_of_mem hpp hq, Fin.val_inj]
  constructor
  · rintro rfl
    exact hq
  · intro hp
    exact L.stageLayers_unique p q l hp hq

theorem Layout.firstStage_ne_lastStage (hpp : L.ppSize ≠ 1) : L.firstStage ≠ L.lastStage := by
  intro heq
  have hval : 0 = L.ppSize - 1 := congrArg Fin.val heq
  have hpos := L.ppSize_pos
  omega

end Layouts

section Captured

variable {ν : Type} [Zero ν] {L : Layout} {p : Fin L.ppSize} {pass : Pass ν} {l : ℕ}

theorem Pass.layer_sendable (pass : Pass ν) (l : ℕ) : Sendable (pass.layer l) :=
  ⟨by rw [pass.layer_shape]; rfl, pass.layer_dtype l⟩

theorem Pass.embeds_sendable (pass : Pass ν) : Sendable pass.embeds :=
  ⟨by rw [pass.embeds_shape]; rfl, pass.embeds_dtype⟩

theorem get_map_layer (layers : List ℕ) (f : ℕ → Tensors.Tensor Dtype ν) (l : ℕ) :
    Dict.get (layers.map fun l ↦ (Key.layer l, f l)) (.layer l) =
      if l ∈ layers then some (f l) else none := by
  induction layers with
  | nil => rfl
  | cons k layers ih =>
    rw [List.map_cons, Dict.get_cons, ih]
    by_cases hk : l = k
    · simp [hk]
    · simp [hk]

theorem get_captured_layer (hl : l ∈ L.auxLayerIndices) :
    Dict.get (L.captured p pass) (.layer l) =
      if l ∈ L.stageLayers p then some (pass.layer l) else none := by
  have hmem : l ∈ L.computeLocalLayerMapping p ↔ l ∈ L.stageLayers p := by
    simp [Layout.computeLocalLayerMapping, hl]
  rw [Layout.captured]
  split_ifs with hp hstage hstage
  · rw [List.singleton_append, Dict.get_cons, if_neg (by simp), get_map_layer,
      if_pos (hmem.mpr hstage)]
  · rw [List.singleton_append, Dict.get_cons, if_neg (by simp), get_map_layer,
      if_neg (hmem.not.mpr hstage)]
  · rw [List.nil_append, get_map_layer, if_pos (hmem.mpr hstage)]
  · rw [List.nil_append, get_map_layer, if_neg (hmem.not.mpr hstage)]

theorem get_captured_embeds :
    Dict.get (L.captured p pass) .embeds =
      if p = L.firstStage then some pass.embeds else none := by
  have hnone : ∀ layers : List ℕ,
      Dict.get (layers.map fun l ↦ (Key.layer l, pass.layer l)) .embeds = none := by
    intro layers
    induction layers with
    | nil => rfl
    | cons k layers ih => rw [List.map_cons, Dict.get_cons, if_neg (by simp), ih]
  rw [Layout.captured]
  split_ifs with hp
  · rw [List.singleton_append, Dict.get_cons, if_pos rfl]
  · rw [List.nil_append, hnone]

end Captured

section Stages

variable {ν : Type} [Zero ν] {L : Layout} {p : Fin L.ppSize} {pass : Pass ν}
  {E : ElementTypes Dtype ν} {h : List (Event ℕ (Message ν))} {layers : List ℕ}
  {gathered g : Dict ℕ (Tensors.Tensor Dtype ν)}

/-- The events that send tensors to a rank. -/
def sends (r : ℕ) (ts : List (Tensors.Tensor Dtype ν)) : List (Event ℕ (Message ν)) :=
  ts.flatMap fun t ↦ (framed t).map (.sent r)

def Layout.ownLayers (L : Layout) (p : Fin L.ppSize) (layers : List ℕ) : List ℕ :=
  layers.filter (· ∈ L.stageLayers p)

theorem Layout.ownLayers_cons_of_mem {l : ℕ} (hl : l ∈ L.stageLayers p) :
    L.ownLayers p (l :: layers) = l :: L.ownLayers p layers :=
  List.filter_cons_of_pos (decide_eq_true hl)

theorem Layout.ownLayers_cons_of_not_mem {l : ℕ} (hl : l ∉ L.stageLayers p) :
    L.ownLayers p (l :: layers) = L.ownLayers p layers :=
  List.filter_cons_of_neg (by simpa using hl)

/-- What a stage other than the last sends away. -/
def Layout.sentTensors (L : Layout) (p : Fin L.ppSize) (pass : Pass ν) :
    List (Tensors.Tensor Dtype ν) :=
  (L.ownLayers p L.auxLayerIndices).map pass.layer ++
    if p = L.firstStage then [pass.embeds] else []

theorem replays_gatherLayers_sender (hpp : L.ppSize ≠ 1) (hp : p ≠ L.lastStage)
    (hlayers : ∀ l ∈ layers, l ∈ L.auxLayerIndices) :
    Replays (L.gatherLayers p (L.captured p pass) layers gathered) h (.done g) ↔
      g = gathered ∧ h = sends (L.ppSize - 1) ((L.ownLayers p layers).map pass.layer) ∧
        (L.ownLayers p layers ≠ [] → L.Peer p (L.ppSize - 1)) := by
  induction layers generalizing h with
  | nil =>
    rw [Layout.gatherLayers]
    refine replays_done_iff.trans ?_
    simp [Layout.ownLayers, sends, and_comm]
  | cons l layers ih =>
    obtain ⟨hl, hrest⟩ := List.forall_mem_cons.mp hlayers
    rw [Layout.gatherLayers]
    by_cases hown : l ∈ L.stageLayers p
    · rw [if_pos ((L.val_eq_ownerRank hpp hl).mpr hown), get_captured_layer hl, if_pos hown,
        L.ownLayers_cons_of_mem hown]
      simp only [if_neg hp, replays_bind_iff, replays_sendTensor (pass.layer_sendable l),
        ih hrest]
      constructor
      · rintro ⟨_, _, _, rfl, ⟨rfl, hpeer⟩, rfl, rfl, -⟩
        exact ⟨rfl, rfl, fun _ ↦ hpeer⟩
      · rintro ⟨rfl, rfl, hpeer⟩
        have hpeer := hpeer fun hnil ↦ List.cons_ne_nil _ _ hnil
        exact ⟨_, _, (), rfl, ⟨rfl, hpeer⟩, rfl, rfl, fun _ ↦ hpeer⟩
    · rw [if_neg ((L.val_eq_ownerRank hpp hl).not.mpr hown), if_neg hp,
        L.ownLayers_cons_of_not_mem hown, ih hrest]

theorem replays_gatherEmbeds_sender (hp : p ≠ L.lastStage) {e : Option (Tensors.Tensor Dtype ν)} :
    Replays (L.gatherEmbeds p (L.captured p pass)) h (.done e) ↔
      e = none ∧ h = sends (L.ppSize - 1) (if p = L.firstStage then [pass.embeds] else []) ∧
        (p = L.firstStage → L.Peer p (L.ppSize - 1)) := by
  rw [Layout.gatherEmbeds]
  split_ifs with hfirst
  · rw [get_captured_embeds, if_pos hfirst]
    simp only [replays_bind_iff, replays_sendTensor pass.embeds_sendable]
    constructor
    · rintro ⟨_, _, _, rfl, ⟨rfl, hpeer⟩, hr⟩
      obtain ⟨rfl, rfl⟩ := replays_done_iff.mp hr
      exact ⟨rfl, rfl, fun _ ↦ hpeer⟩
    · rintro ⟨rfl, rfl, hpeer⟩
      exact ⟨_, [], (), rfl, ⟨rfl, hpeer hfirst⟩, .nil _⟩
  · refine replays_done_iff.trans ?_
    simp [sends, hfirst, and_comm]

/-- A stage other than the last sends its own tensors to rank `pp_size - 1`, if it can. -/
theorem replays_sender (hpp : L.ppSize ≠ 1) (hp : p ≠ L.lastStage) {states : CapturedStates ν} :
    Replays (L.getCapturedStates p E pass) h (.done states) ↔
      states = ⟨none, none⟩ ∧ h = sends (L.ppSize - 1) (L.sentTensors p pass) ∧
        (L.sentTensors p pass ≠ [] → L.Peer p (L.ppSize - 1)) := by
  rw [Layout.getCapturedStates, if_neg hpp, Layout.gatherDistributed]
  split_ifs with hearly
  · -- nothing was captured here, so there is nothing to send
    have hempty := List.isEmpty_iff.mp hearly.1
    have hfirst : p ≠ L.firstStage := by
      rintro rfl
      have hget := @get_captured_embeds ν _ L L.firstStage pass
      rw [hempty, if_pos rfl] at hget
      cases hget
    have hlayers : L.ownLayers p L.auxLayerIndices = [] := by
      rw [Layout.ownLayers, List.filter_eq_nil_iff]
      intro l hl hown
      have hget := @get_captured_layer ν _ L p pass l hl
      rw [hempty, if_pos (by simpa using hown)] at hget
      cases hget
    have hnothing : L.sentTensors p pass = [] := by
      rw [Layout.sentTensors, hlayers, if_neg hfirst]
      rfl
    refine replays_done_iff.trans ?_
    simp [hnothing, sends, and_comm]
  · simp only [replays_bind_iff, replays_gatherLayers_sender hpp hp fun _ hl ↦ hl,
      replays_gatherEmbeds_sender hp, ne_eq]
    constructor
    · rintro ⟨_, _, _, rfl, ⟨rfl, rfl, hpeer⟩, _, _, _, rfl, ⟨rfl, rfl, hpeer'⟩, hr⟩
      obtain ⟨rfl, rfl⟩ := replays_done_iff.mp hr
      refine ⟨rfl, by simp [sends, Layout.sentTensors], fun hsome ↦ ?_⟩
      by_cases hfirst : p = L.firstStage
      · exact hpeer' hfirst
      · apply hpeer
        intro hnone
        exact hsome (by simp [Layout.sentTensors, hnone, hfirst])
    · rintro ⟨rfl, rfl, hpeer⟩
      refine ⟨_, _, _, ?_, ⟨rfl, rfl, fun hne ↦ hpeer ?_⟩, _, [], _, rfl,
        ⟨rfl, rfl, fun hfirst ↦ hpeer ?_⟩, .nil _⟩
      · rw [List.append_nil]
        exact List.flatMap_append
      · simp [Layout.sentTensors, hne]
      · simp [Layout.sentTensors, hfirst]

theorem cat_of_shape {a b c : ℕ} {t : Tensors.Tensor Dtype ν} {ts : List (Tensors.Tensor Dtype ν)}
    (hshape : ∀ u ∈ t :: ts, u.shape = [a, b, c]) : cat E (-1) (t :: ts) =
      some (join E 2 (E.resultType ((t :: ts).map (·.dtype))) [a, b, c] (t :: ts)) := by
  obtain ⟨ht, hts⟩ := List.forall_mem_cons.mp hshape
  have hkept : kept (t :: ts) = t :: ts := by
    rw [kept, List.filter_eq_self]
    intro u hu
    simp [hshape u hu]
  have halike : ∀ u ∈ ts, SameExcept 2 t.shape u.shape := by
    intro u hu
    rw [ht, hts u hu]
    exact SameExcept.refl _ _
  have hwrap : wrapDim (-1) t.shape.length = some 2 := by rw [ht]; rfl
  rw [← ht]
  simp only [cat, hkept, hwrap, Option.bind_some, if_pos halike]

theorem concatenated_layers (layers : List ℕ) (e : Option (Tensors.Tensor Dtype ν)) :
    concatenated E (layers.map pass.layer) e = .done ⟨cat E (-1) (layers.map pass.layer), e⟩ := by
  rw [concatenated]
  cases layers with
  | nil => rfl
  | cons l layers =>
    have hshape : ∀ u ∈ (l :: layers).map pass.layer,
        u.shape = [pass.seqLen, pass.batchSize, pass.hiddenSize] := by
      intro u hu
      obtain ⟨k, -, rfl⟩ := List.mem_map.mp hu
      exact pass.layer_shape k
    rw [List.map_cons] at hshape ⊢
    rw [cat_of_shape hshape]
    rfl

/-- The states that one stage with all layers returns. -/
def Layout.wholeStates (L : Layout) (E : ElementTypes Dtype ν) (pass : Pass ν) :
    CapturedStates ν :=
  ⟨cat E (-1) ((L.auxLayerIndices.mergeSort (· ≤ ·)).map pass.layer), some pass.embeds⟩

theorem getCapturedStates_single (hpp : L.ppSize = 1) :
    L.getCapturedStates p E pass = .done (L.wholeStates E pass) := by
  have honly : ∀ q : Fin L.ppSize, q = p := by
    intro q
    apply Fin.ext
    omega
  have hchunks : (L.auxLayerIndices.mergeSort (· ≤ ·)).filterMap (fun l ↦
      Dict.get (L.captured p pass) (.layer l)) =
        (L.auxLayerIndices.mergeSort (· ≤ ·)).map pass.layer := by
    rw [← List.filterMap_eq_map]
    refine List.filterMap_congr fun l hl ↦ ?_
    have hl : l ∈ L.auxLayerIndices := List.mem_mergeSort.mp hl
    obtain ⟨q, hq⟩ := L.stageLayers_cover l (L.aux_lt l hl)
    rw [get_captured_layer hl, if_pos (honly q ▸ hq)]
    rfl
  rw [Layout.getCapturedStates, if_pos hpp, Layout.assembleLocalStates, hchunks,
    get_captured_embeds, if_pos (honly _).symm, concatenated_layers]
  rfl

/-- The events that receive the layers of `layers` that are not on the last stage. -/
def Layout.layerReceives (L : Layout) (pass : Pass ν) (layers : List ℕ) :
    List (Event ℕ (Message ν)) :=
  (layers.filter (· ∉ L.stageLayers L.lastStage)).flatMap fun l ↦
    (framed (pass.layer l)).map (.received (L.ownerRankForGlobalLayer l))

theorem Layout.layerReceives_cons_own {l : ℕ} (hl : l ∈ L.stageLayers L.lastStage) :
    L.layerReceives pass (l :: layers) = L.layerReceives pass layers := by
  rw [Layout.layerReceives, List.filter_cons_of_neg (by simpa using hl)]
  rfl

theorem Layout.layerReceives_cons_other {l : ℕ} (hl : l ∉ L.stageLayers L.lastStage) :
    L.layerReceives pass (l :: layers) =
      (framed (pass.layer l)).map (.received (L.ownerRankForGlobalLayer l)) ++
        L.layerReceives pass layers := by
  rw [Layout.layerReceives, List.filter_cons_of_pos (by simpa using hl)]
  rfl

def setLayers (pass : Pass ν) (layers : List ℕ) (gathered : Dict ℕ (Tensors.Tensor Dtype ν)) :
    Dict ℕ (Tensors.Tensor Dtype ν) :=
  layers.foldl (fun g l ↦ Dict.set g l (pass.layer l)) gathered

theorem replays_gatherLayers_last (hpp : L.ppSize ≠ 1)
    (hlayers : ∀ l ∈ layers, l ∈ L.auxLayerIndices)
    (hpeer : ∀ l ∈ layers, l ∉ L.stageLayers L.lastStage →
      L.Peer L.lastStage (L.ownerRankForGlobalLayer l)) :
    Replays (L.gatherLayers L.lastStage (L.captured L.lastStage pass) layers gathered)
      (L.layerReceives pass layers) (.done (setLayers pass layers gathered)) := by
  induction layers generalizing gathered with
  | nil => exact .nil _
  | cons l layers ih =>
    obtain ⟨hl, hrest⟩ := List.forall_mem_cons.mp hlayers
    obtain ⟨hpeerl, hpeers⟩ := List.forall_mem_cons.mp hpeer
    rw [Layout.gatherLayers]
    by_cases hown : l ∈ L.stageLayers L.lastStage
    · rw [if_pos ((L.val_eq_ownerRank hpp hl).mpr hown), get_captured_layer hl, if_pos hown,
        L.layerReceives_cons_own hown]
      simp only [if_true]
      exact ih hrest hpeers
    · rw [if_neg ((L.val_eq_ownerRank hpp hl).not.mpr hown), if_pos rfl,
        L.layerReceives_cons_other hown]
      exact (replays_recvTensor.mpr ⟨rfl, pass.layer_sendable l, hpeerl hown⟩).bind
        (ih hrest hpeers)

/-- The tensor kept for a layer is the stage's own one, or was received from the rank
that is the number of the layer's stage. -/
def Layout.FromOwner (L : Layout) (pass : Pass ν) (h : List (Event ℕ (Message ν))) (l : ℕ)
    (t : Tensors.Tensor Dtype ν) : Prop :=
  (l ∈ L.stageLayers L.lastStage → t = pass.layer l) ∧
    (l ∉ L.stageLayers L.lastStage → L.Peer L.lastStage (L.ownerRankForGlobalLayer l) ∧
      .received (L.ownerRankForGlobalLayer l) (.payload t) ∈ h)

/-- What the loop of the last stage over `layers` makes of `gathered`. -/
structure Layout.Gathered (L : Layout) (pass : Pass ν) (layers : List ℕ)
    (gathered g : Dict ℕ (Tensors.Tensor Dtype ν)) (h : List (Event ℕ (Message ν))) : Prop where
  keys : g.map Prod.fst = gathered.map Prod.fst ++ layers
  kept : ∀ k, k ∉ layers → Dict.get g k = Dict.get gathered k
  values : ∀ l ∈ layers, ∃ t, Dict.get g l = some t ∧ L.FromOwner pass h l t

theorem Layout.Gathered.cons {l : ℕ} {t : Tensors.Tensor Dtype ν}
    (hg : L.Gathered pass layers (Dict.set gathered l t) g h)
    (h' : List (Event ℕ (Message ν))) (hl : l ∉ layers)
    (hfresh : l ∉ gathered.map Prod.fst) (ht : L.FromOwner pass (h' ++ h) l t) :
    L.Gathered pass (l :: layers) gathered g (h' ++ h) where
  keys := by
    rw [hg.keys, Dict.keys_set_of_not_mem hfresh, List.append_assoc, List.singleton_append]
  kept k hk := by
    rw [List.mem_cons, not_or] at hk
    rw [hg.kept k hk.2, Dict.get_set_of_ne hk.1]
  values := by
    refine List.forall_mem_cons.mpr ⟨⟨t, ?_, ht⟩, fun k hk ↦ ?_⟩
    · rw [hg.kept l hl, Dict.get_set_self]
    · obtain ⟨u, hu, hown, hother⟩ := hg.values k hk
      refine ⟨u, hu, hown, fun hk' ↦ ?_⟩
      obtain ⟨hpeer, hmem⟩ := hother hk'
      exact ⟨hpeer, List.mem_append_right _ hmem⟩

theorem of_replays_gatherLayers_last (hpp : L.ppSize ≠ 1)
    (hlayers : ∀ l ∈ layers, l ∈ L.auxLayerIndices) (hnodup : layers.Nodup)
    (hfresh : ∀ l ∈ layers, l ∉ gathered.map Prod.fst)
    (hr : Replays (L.gatherLayers L.lastStage (L.captured L.lastStage pass) layers gathered)
      h (.done g)) : L.Gathered pass layers gathered g h := by
  induction layers generalizing gathered h with
  | nil =>
    rw [Layout.gatherLayers] at hr
    obtain ⟨-, rfl⟩ := replays_done_iff.mp hr
    exact ⟨(List.append_nil _).symm, fun _ _ ↦ rfl, fun l hl ↦ absurd hl List.not_mem_nil⟩
  | cons l layers ih =>
    obtain ⟨hl, hrest⟩ := List.forall_mem_cons.mp hlayers
    obtain ⟨hnot, hnodup⟩ := List.nodup_cons.mp hnodup
    obtain ⟨hfreshl, hfresh⟩ := List.forall_mem_cons.mp hfresh
    have hfresh' : ∀ t, ∀ k ∈ layers, k ∉ (Dict.set gathered l t).map Prod.fst := by
      intro t k hk hmem
      rcases Dict.mem_keys_set.mp hmem with rfl | hmem
      · exact hnot hk
      · exact hfresh k hk hmem
    rw [Layout.gatherLayers] at hr
    by_cases hown : l ∈ L.stageLayers L.lastStage
    · rw [if_pos ((L.val_eq_ownerRank hpp hl).mpr hown), get_captured_layer hl, if_pos hown] at hr
      simp only [if_true] at hr
      exact (ih hrest hnodup (hfresh' _) hr).cons [] hnot hfreshl
        ⟨fun _ ↦ rfl, fun hno ↦ absurd hown hno⟩
    · rw [if_neg ((L.val_eq_ownerRank hpp hl).not.mpr hown), if_pos rfl] at hr
      obtain ⟨h₁, h₂, t, rfl, hrecv, hloop⟩ := replays_bind_iff.mp hr
      obtain ⟨rfl, -, hpeer⟩ := replays_recvTensor.mp hrecv
      refine (ih hrest hnodup (hfresh' t) hloop).cons _ hnot hfreshl
        ⟨fun hmem ↦ absurd hmem hown, fun _ ↦ ⟨hpeer, List.mem_append_left _ ?_⟩⟩
      simp [framed]

theorem replays_gatherEmbeds_last (hpp : L.ppSize ≠ 1) {e : Option (Tensors.Tensor Dtype ν)} :
    Replays (L.gatherEmbeds L.lastStage (L.captured L.lastStage pass)) h (.done e) ↔
      ∃ t, e = some t ∧ h = (framed t).map (.received 0) ∧ Sendable t ∧
        L.Peer L.lastStage 0 := by
  rw [Layout.gatherEmbeds, if_neg (L.firstStage_ne_lastStage hpp).symm, if_pos rfl,
    replays_bind_iff]
  constructor
  · rintro ⟨_, _, t, rfl, hrecv, hr⟩
    obtain ⟨rfl, hrest⟩ := replays_recvTensor.mp hrecv
    obtain ⟨rfl, rfl⟩ := replays_done_iff.mp hr
    exact ⟨t, rfl, List.append_nil _, hrest⟩
  · rintro ⟨t, rfl, rfl, hrest⟩
    exact ⟨_, [], t, (List.append_nil _).symm, replays_recvTensor.mpr ⟨rfl, hrest⟩, .nil _⟩

theorem getCapturedStates_last (hpp : L.ppSize ≠ 1) :
    L.getCapturedStates L.lastStage E pass =
      (L.gatherLayers L.lastStage (L.captured L.lastStage pass) L.auxLayerIndices [] >>=
        fun gathered ↦ L.gatherEmbeds L.lastStage (L.captured L.lastStage pass) >>=
          fun embeds ↦ concatenated E (((gathered.map Prod.fst).mergeSort (· ≤ ·)).filterMap
            (Dict.get gathered)) embeds) := by
  rw [Layout.getCapturedStates, if_neg hpp, Layout.gatherDistributed, if_neg (by simp)]
  simp only [ne_eq, not_true_eq_false, if_false]

/-- The communications of the last stage where every peer answers to its position. -/
def Layout.receives (L : Layout) (pass : Pass ν) : List (Event ℕ (Message ν)) :=
  L.layerReceives pass L.auxLayerIndices ++ (framed pass.embeds).map (.received 0)

theorem get_setLayers {k : ℕ} : Dict.get (setLayers pass layers gathered) k =
    if k ∈ layers then some (pass.layer k) else Dict.get gathered k := by
  induction layers generalizing gathered with
  | nil => rfl
  | cons l layers ih =>
    rw [setLayers, List.foldl_cons]
    refine ih.trans ?_
    rw [Dict.get_set]
    by_cases hk : k ∈ layers
    · simp [hk]
    · by_cases hl : k = l
      · simp [hl]
      · simp [hk, hl]

theorem keys_setLayers (hnodup : layers.Nodup)
    (hfresh : ∀ l ∈ layers, l ∉ gathered.map Prod.fst) :
    (setLayers pass layers gathered).map Prod.fst = gathered.map Prod.fst ++ layers := by
  induction layers generalizing gathered with
  | nil => exact (List.append_nil _).symm
  | cons l layers ih =>
    obtain ⟨hnot, hnodup⟩ := List.nodup_cons.mp hnodup
    obtain ⟨hfreshl, hfresh⟩ := List.forall_mem_cons.mp hfresh
    rw [setLayers, List.foldl_cons]
    refine (ih hnodup fun k hk hmem ↦ ?_).trans ?_
    · rcases Dict.mem_keys_set.mp hmem with rfl | hmem
      · exact hnot hk
      · exact hfresh k hk hmem
    · rw [Dict.keys_set_of_not_mem hfreshl, List.append_assoc, List.singleton_append]

theorem replays_last (hpp : L.ppSize ≠ 1)
    (hpeer : ∀ l ∈ L.auxLayerIndices, l ∉ L.stageLayers L.lastStage →
      L.Peer L.lastStage (L.ownerRankForGlobalLayer l)) (hzero : L.Peer L.lastStage 0) :
    Replays (L.getCapturedStates L.lastStage E pass) (L.receives pass)
      (.done (L.wholeStates E pass)) := by
  rw [getCapturedStates_last hpp]
  refine (replays_gatherLayers_last hpp (fun _ hl ↦ hl) hpeer).bind ?_
  rw [← List.append_nil ((framed pass.embeds).map _)]
  refine ((replays_gatherEmbeds_last hpp).mpr
    ⟨_, rfl, rfl, pass.embeds_sendable, hzero⟩).bind ?_
  have hkeys : (setLayers pass L.auxLayerIndices []).map Prod.fst = L.auxLayerIndices :=
    keys_setLayers L.aux_nodup fun _ _ ↦ List.not_mem_nil
  have hchunks : (L.auxLayerIndices.mergeSort (· ≤ ·)).filterMap
      (Dict.get (setLayers pass L.auxLayerIndices [])) =
        (L.auxLayerIndices.mergeSort (· ≤ ·)).map pass.layer := by
    rw [← List.filterMap_eq_map]
    refine List.filterMap_congr fun l hl ↦ ?_
    rw [get_setLayers, if_pos (List.mem_mergeSort.mp hl)]
    rfl
  rw [hkeys, hchunks, concatenated_layers]
  exact .nil _

theorem of_replays_last (hpp : L.ppSize ≠ 1) {states : CapturedStates ν}
    (hr : Replays (L.getCapturedStates L.lastStage E pass) h (.done states)) :
    ∃ g t, L.Gathered pass L.auxLayerIndices [] g h ∧ L.Peer L.lastStage 0 ∧
      .received 0 (.payload t) ∈ h ∧ states =
        ⟨cat E (-1) ((L.auxLayerIndices.mergeSort (· ≤ ·)).filterMap (Dict.get g)), some t⟩ := by
  rw [getCapturedStates_last hpp] at hr
  obtain ⟨h₁, h₂, g, rfl, hlayers, hrest⟩ := replays_bind_iff.mp hr
  obtain ⟨h₃, h₄, e, rfl, hembeds, hcat⟩ := replays_bind_iff.mp hrest
  obtain ⟨t, rfl, rfl, -, hpeer⟩ := (replays_gatherEmbeds_last hpp).mp hembeds
  obtain ⟨rfl, rfl⟩ := replays_concatenated hcat
  have hg := of_replays_gatherLayers_last hpp (fun _ hl ↦ hl) L.aux_nodup
    (fun _ _ ↦ List.not_mem_nil) hlayers
  refine ⟨g, t, ⟨hg.keys, hg.kept, fun l hl ↦ ?_⟩, hpeer, ?_, ?_⟩
  · obtain ⟨u, hu, hown, hother⟩ := hg.values l hl
    refine ⟨u, hu, hown, fun hl' ↦ ?_⟩
    obtain ⟨hpeer, hmem⟩ := hother hl'
    exact ⟨hpeer, List.mem_append_left _ hmem⟩
  · simp [framed]
  · rw [hg.keys]
    rfl

end Stages

end NemoRL.Models.Draft.HiddenCapture
