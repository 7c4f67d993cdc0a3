import NemoRL.Models.Draft.HiddenCapturePrograms

namespace NemoRL.Models.Draft.HiddenCapture

open Foundations Foundations.Channels Foundations.Tensors

namespace Layout

variable (L : Layout)

/-- Every stage that sends or receives has its position in the group as its global rank. -/
def PlacedByPosition : Prop :=
  L.ppSize = 1 ∨ ∀ p, (p = L.firstStage ∨ p = L.lastStage ∨
    ∃ l ∈ L.auxLayerIndices, l ∈ L.stageLayers p) → L.group p = p.val

theorem oneStage_lt (n : ℕ) (_ : Fin 1) : ∀ l ∈ List.range n, l < n :=
  fun _ hl ↦ List.mem_range.mp hl

theorem oneStage_nodup (n : ℕ) (_ : Fin 1) : (List.range n).Nodup := List.nodup_range

theorem oneStage_unique (n : ℕ) (p q : Fin 1) (l : ℕ) (_ : l ∈ List.range n)
    (_ : l ∈ List.range n) : p = q :=
  Subsingleton.elim p q

theorem oneStage_cover (n l : ℕ) (hl : l < n) : ∃ _ : Fin 1, l ∈ List.range n :=
  ⟨0, List.mem_range.mpr hl⟩

theorem oneStage_injective : Function.Injective fun _ : Fin 1 ↦ 0 :=
  fun p q _ ↦ Subsingleton.elim p q

def oneStage : Layout where
  numLayers := L.numLayers
  ppSize := 1
  stageLayers _ := List.range L.numLayers
  auxLayerIndices := L.auxLayerIndices
  group _ := 0
  ppSize_pos := Nat.one_pos
  stageLayers_lt := oneStage_lt L.numLayers
  stageLayers_nodup := oneStage_nodup L.numLayers
  stageLayers_unique := oneStage_unique L.numLayers
  stageLayers_cover := oneStage_cover L.numLayers
  aux_lt := L.aux_lt
  aux_nodup := L.aux_nodup
  group_injective := oneStage_injective

/-- After every pass, in whatever order the ranks go on: they all come to an end, the last
stage with the states of the model on one stage, the others with none, and each pair of
ranks has as many receives as sends, of the same messages in the same order. -/
def CaptureAgrees : Prop :=
  ∀ (ν : Type) [Zero ν] (E : ElementTypes Dtype ν) (pass : Pass ν)
    (B : Buffering (Message ν)),
    (∃ N, ∀ order s, Transition.exec (step B) (L.start E pass) order = some s →
      order.length ≤ N) ∧
    ∀ s, Transition.Reachable (step B) (· = L.start E pass) s → Terminal B s →
      (∃ states, L.oneStage.getCapturedStates L.oneStage.firstStage E pass = .done states ∧
        s.process (L.group L.lastStage) = .done states) ∧
      (∀ p, p ≠ L.lastStage → s.process (L.group p) = .done ⟨none, none⟩) ∧
      ∀ a b, receivedFrom a (s.history b) = sentTo b (s.history a)

end Layout

section Placed

variable {ν : Type} [Zero ν] {L : Layout} {p : Fin L.ppSize} {pass : Pass ν}
  {E : ElementTypes Dtype ν}

/-- What a rank communicates where every peer answers to its position. -/
def Layout.rankEvents (L : Layout) (pass : Pass ν) (r : ℕ) : List (Event ℕ (Message ν)) :=
  match L.stageOf r with
  | none => []
  | some p => if L.ppSize = 1 then []
    else if p = L.lastStage then L.receives pass
    else sends (L.ppSize - 1) (L.sentTensors p pass)

def Layout.rankResult (L : Layout) (E : ElementTypes Dtype ν) (pass : Pass ν) (r : ℕ) :
    CapturedStates ν :=
  match L.stageOf r with
  | none => ⟨none, none⟩
  | some p => if p = L.lastStage then L.wholeStates E pass else ⟨none, none⟩

def Layout.rankProcess (L : Layout) (E : ElementTypes Dtype ν) (pass : Pass ν) (r : ℕ) :
    Capture ν (CapturedStates ν) :=
  match L.stageOf r with
  | none => .done ⟨none, none⟩
  | some p => L.getCapturedStates p E pass

theorem Layout.start_eq : L.start E pass = System.start (L.rankProcess E pass) := rfl

theorem Layout.PlacedByPosition.peer (h : L.PlacedByPosition) (hpp : L.ppSize ≠ 1)
    {p q : Fin L.ppSize} (hq : q = L.firstStage ∨ q = L.lastStage ∨
      ∃ l ∈ L.auxLayerIndices, l ∈ L.stageLayers q) (hne : q ≠ p) : L.Peer p q.val := by
  have hgroup := (h.resolve_left hpp) q hq
  exact ⟨⟨q, hgroup⟩, fun heq ↦ hne (L.group_injective (hgroup.trans heq))⟩

theorem replays_rank (h : L.PlacedByPosition) (r : ℕ) :
    Replays (L.rankProcess E pass r) (L.rankEvents pass r) (.done (L.rankResult E pass r)) := by
  rw [Layout.rankProcess, Layout.rankEvents, Layout.rankResult]
  cases hstage : L.stageOf r with
  | none => exact .nil _
  | some p =>
    simp only
    by_cases hpp : L.ppSize = 1
    · have hlast : p = L.lastStage := by
        apply Fin.ext
        have hval : L.lastStage.val = L.ppSize - 1 := rfl
        omega
      rw [if_pos hpp, if_pos hlast, getCapturedStates_single hpp]
      exact .nil _
    rw [if_neg hpp]
    have hfirst : L.firstStage ≠ L.lastStage := L.firstStage_ne_lastStage hpp
    by_cases hlast : p = L.lastStage
    · rw [if_pos hlast, if_pos hlast, hlast]
      refine replays_last hpp (fun l hl hnot ↦ ?_) (h.peer hpp (.inl rfl) hfirst)
      obtain ⟨q, hq⟩ := L.stageLayers_cover l (L.aux_lt l hl)
      rw [L.ownerRank_of_mem hpp hq]
      refine h.peer hpp (.inr (.inr ⟨l, hl, hq⟩)) ?_
      rintro rfl
      exact hnot hq
    · rw [if_neg hlast, if_neg hlast]
      refine (replays_sender hpp hlast).mpr ⟨rfl, rfl, fun _ ↦ ?_⟩
      exact h.peer hpp (.inr (.inl rfl)) (Ne.symm hlast)

theorem sentTo_sends (a r : ℕ) (ts : List (Tensors.Tensor Dtype ν)) :
    sentTo a (sends r ts) = if r = a then ts.flatMap framed else [] := by
  induction ts with
  | nil => simp [sends]
  | cons t ts ih =>
    rw [sends, List.flatMap_cons, sentTo_append, ← sends, ih]
    by_cases hr : r = a
    · simp [framed, hr]
    · simp [framed, hr]

theorem receivedFrom_sends (a r : ℕ) (ts : List (Tensors.Tensor Dtype ν)) :
    receivedFrom a (sends r ts) = [] := by
  induction ts with
  | nil => rfl
  | cons t ts ih =>
    rw [sends, List.flatMap_cons, receivedFrom_append, ← sends, ih]
    rfl

theorem sentTo_receives (a : ℕ) : sentTo a (L.receives pass) = [] := by
  have hlayers : ∀ layers, sentTo a (L.layerReceives pass layers) = [] := by
    intro layers
    rw [Layout.layerReceives]
    induction layers.filter (· ∉ L.stageLayers L.lastStage) with
    | nil => rfl
    | cons l layers ih =>
      rw [List.flatMap_cons, sentTo_append, ih]
      rfl
  rw [Layout.receives, sentTo_append, hlayers]
  rfl

theorem receivedFrom_framed (a r : ℕ) (t : Tensors.Tensor Dtype ν) :
    receivedFrom a ((framed t).map (.received r)) = if r = a then framed t else [] := by
  by_cases hr : r = a
  · simp [framed, hr]
  · simp [framed, hr]

theorem receivedFrom_layerReceives (h : L.PlacedByPosition) (hpp : L.ppSize ≠ 1)
    (hp : p ≠ L.lastStage) {layers : List ℕ} (hlayers : ∀ l ∈ layers, l ∈ L.auxLayerIndices) :
    receivedFrom (L.group p) (L.layerReceives pass layers) =
      ((L.ownLayers p layers).map pass.layer).flatMap framed := by
  induction layers with
  | nil => rfl
  | cons l layers ih =>
    obtain ⟨hl, hrest⟩ := List.forall_mem_cons.mp hlayers
    obtain ⟨q, hq⟩ := L.stageLayers_cover l (L.aux_lt l hl)
    have hgroup : L.group q = q.val := (h.resolve_left hpp) q (.inr (.inr ⟨l, hl, hq⟩))
    by_cases hown : l ∈ L.stageLayers p
    · obtain rfl := L.stageLayers_unique q p l hq hown
      have hlast : l ∉ L.stageLayers L.lastStage :=
        fun hlast ↦ hp (L.stageLayers_unique _ _ l hown hlast)
      rw [L.layerReceives_cons_other hlast, receivedFrom_append, receivedFrom_framed,
        L.ownerRank_of_mem hpp hq, if_pos hgroup.symm, ih hrest, L.ownLayers_cons_of_mem hown,
        List.map_cons, List.flatMap_cons]
    · rw [L.ownLayers_cons_of_not_mem hown, ← ih hrest]
      by_cases hlast : l ∈ L.stageLayers L.lastStage
      · rw [L.layerReceives_cons_own hlast]
      · have hne : q.val ≠ L.group p := by
          rw [← hgroup]
          intro heq
          obtain rfl := L.group_injective heq
          exact hown hq
        rw [L.layerReceives_cons_other hlast, receivedFrom_append, receivedFrom_framed,
          L.ownerRank_of_mem hpp hq, if_neg hne, List.nil_append]

/-- A stage other than the last sends what the last one receives from its rank. -/
theorem receivedFrom_receives (h : L.PlacedByPosition) (hpp : L.ppSize ≠ 1)
    (hp : p ≠ L.lastStage) :
    receivedFrom (L.group p) (L.receives pass) = (L.sentTensors p pass).flatMap framed := by
  have hfirst : L.group L.firstStage = 0 := (h.resolve_left hpp) _ (.inl rfl)
  rw [Layout.receives, receivedFrom_append, receivedFrom_layerReceives h hpp hp fun _ hl ↦ hl,
    receivedFrom_framed, Layout.sentTensors, List.flatMap_append]
  by_cases hp' : p = L.firstStage
  · rw [if_pos (by rw [hp', hfirst]), if_pos hp']
    simp
  · rw [if_neg fun heq ↦ hp' (L.group_injective (heq.symm.trans hfirst.symm)), if_neg hp']
    rfl

/-- From a rank that is no stage, and from itself, the last stage receives nothing. -/
theorem receivedFrom_receives_other (h : L.PlacedByPosition) (hpp : L.ppSize ≠ 1) {a : ℕ}
    (ha : ∀ p, p ≠ L.lastStage → L.group p ≠ a) : receivedFrom a (L.receives pass) = [] := by
  have hfirst : L.group L.firstStage = 0 := (h.resolve_left hpp) _ (.inl rfl)
  have hlayers : ∀ layers, (∀ l ∈ layers, l ∈ L.auxLayerIndices) →
      receivedFrom a (L.layerReceives pass layers) = [] := by
    intro layers hmem
    induction layers with
    | nil => rfl
    | cons l layers ih =>
      obtain ⟨hl, hrest⟩ := List.forall_mem_cons.mp hmem
      by_cases hlast : l ∈ L.stageLayers L.lastStage
      · rw [L.layerReceives_cons_own hlast, ih hrest]
      · obtain ⟨q, hq⟩ := L.stageLayers_cover l (L.aux_lt l hl)
        have hgroup : L.group q = q.val := (h.resolve_left hpp) q (.inr (.inr ⟨l, hl, hq⟩))
        have hne : q.val ≠ a := by
          rw [← hgroup]
          refine ha q ?_
          rintro rfl
          exact hlast hq
        rw [L.layerReceives_cons_other hlast, receivedFrom_append, receivedFrom_framed,
          L.ownerRank_of_mem hpp hq, if_neg hne, ih hrest, List.append_nil]
  rw [Layout.receives, receivedFrom_append, hlayers _ fun _ hl ↦ hl, receivedFrom_framed,
    if_neg (hfirst ▸ ha _ (L.firstStage_ne_lastStage hpp)), List.append_nil]

theorem rankEvents_matched (h : L.PlacedByPosition) (a b : ℕ) :
    receivedFrom a (L.rankEvents pass b) = sentTo b (L.rankEvents pass a) := by
  by_cases hpp : L.ppSize = 1
  · have hnone : ∀ r, L.rankEvents pass r = [] := by
      intro r
      rw [Layout.rankEvents]
      cases L.stageOf r with
      | none => rfl
      | some p => exact if_pos hpp
    rw [hnone, hnone]
    rfl
  have hlast : L.group L.lastStage = L.ppSize - 1 := (h.resolve_left hpp) _ (.inr (.inl rfl))
  have hevents : ∀ p, L.rankEvents pass (L.group p) = if p = L.lastStage then L.receives pass
      else sends (L.ppSize - 1) (L.sentTensors p pass) := by
    intro p
    rw [Layout.rankEvents, Layout.stageOf_eq_some.mpr rfl]
    exact if_neg hpp
  have hnone : ∀ r, (∀ p, L.group p ≠ r) → L.rankEvents pass r = [] := by
    intro r hr
    rw [Layout.rankEvents, Layout.stageOf_eq_none.mpr hr]
  by_cases hb : b = L.group L.lastStage
  · rw [hb, hevents, if_pos rfl]
    by_cases ha : ∃ p, p ≠ L.lastStage ∧ L.group p = a
    · obtain ⟨p, hp, rfl⟩ := ha
      rw [hevents, if_neg hp, receivedFrom_receives h hpp hp, sentTo_sends, if_pos hlast.symm]
    · push Not at ha
      rw [receivedFrom_receives_other h hpp ha]
      by_cases ha' : a = L.group L.lastStage
      · rw [ha', hevents, if_pos rfl, sentTo_receives]
      · rw [hnone a fun p hp ↦ ha p (fun heq ↦ ha' (by rw [← hp, heq])) hp]
        rfl
  · have hleft : receivedFrom a (L.rankEvents pass b) = [] := by
      by_cases hb' : ∃ q, L.group q = b
      · obtain ⟨q, rfl⟩ := hb'
        rw [hevents, if_neg fun heq ↦ hb (by rw [heq]), receivedFrom_sends]
      · push Not at hb'
        rw [hnone b hb']
        rfl
    have hright : sentTo b (L.rankEvents pass a) = [] := by
      by_cases ha : ∃ p, L.group p = a
      · obtain ⟨p, rfl⟩ := ha
        rw [hevents]
        split_ifs
        · rw [sentTo_receives]
        · rw [sentTo_sends, if_neg fun heq ↦ hb (by rw [hlast, heq])]
      · push Not at ha
        rw [hnone a ha]
        rfl
    rw [hleft, hright]

def Layout.plan (L : Layout) (E : ElementTypes Dtype ν) (pass : Pass ν)
    (h : L.PlacedByPosition) : Plan (L.rankProcess E pass) where
  events := L.rankEvents pass
  result := L.rankResult E pass
  replays := replays_rank h
  matched := rankEvents_matched h

theorem plan_gathers (h : L.PlacedByPosition) :
    (L.plan E pass h).Gathers (L.group L.lastStage) where
  sends := by
    intro r hr e he
    replace he : e ∈ L.rankEvents pass r := he
    rw [Layout.rankEvents] at he
    cases hstage : L.stageOf r with
    | none =>
      rw [hstage] at he
      exact absurd he List.not_mem_nil
    | some p =>
      have hp : p ≠ L.lastStage := by
        rintro rfl
        exact hr (Layout.stageOf_eq_some.mp hstage).symm
      simp only [hstage, if_neg hp] at he
      split_ifs at he with hpp
      · exact absurd he List.not_mem_nil
      · obtain ⟨t, -, ht⟩ := List.mem_flatMap.mp he
        obtain ⟨m, -, rfl⟩ := List.mem_map.mp ht
        exact ⟨m, congrArg (Event.sent · m) ((h.resolve_left hpp) _ (.inr (.inl rfl))).symm⟩
  receives := by
    intro e he
    replace he : e ∈ L.rankEvents pass (L.group L.lastStage) := he
    rw [Layout.rankEvents, Layout.stageOf_eq_some.mpr rfl] at he
    simp only [if_true] at he
    split_ifs at he with hpp
    · exact absurd he List.not_mem_nil
    · rcases List.mem_append.mp he with he | he
      · obtain ⟨l, -, hl⟩ := List.mem_flatMap.mp he
        obtain ⟨m, -, rfl⟩ := List.mem_map.mp hl
        exact ⟨_, m, rfl⟩
      · obtain ⟨m, -, rfl⟩ := List.mem_map.mp he
        exact ⟨0, m, rfl⟩

theorem captureAgrees_of_placed (h : L.PlacedByPosition) : L.CaptureAgrees := by
  intro ν _ E pass B
  have hg : (L.plan E pass h).Gathers (L.group L.lastStage) := plan_gathers h
  have hresult : ∀ p, L.rankResult E pass (L.group p) =
      if p = L.lastStage then L.wholeStates E pass else ⟨none, none⟩ := by
    intro p
    rw [Layout.rankResult, Layout.stageOf_eq_some.mpr rfl]
  refine ⟨⟨∑ r ∈ Finset.univ.image L.group, (L.rankEvents pass r).length, fun order s hs ↦ ?_⟩,
    fun s hs ht ↦ ⟨⟨L.wholeStates E pass, ?_, ?_⟩, ?_, ?_⟩⟩
  · have hranks : ∀ r, r ∉ Finset.univ.image L.group → L.rankEvents pass r = [] := by
      intro r hr
      rw [Layout.rankEvents, Layout.stageOf_eq_none.mpr fun p hp ↦
        hr (Finset.mem_image.mpr ⟨p, Finset.mem_univ p, hp⟩)]
    exact (Nat.le_add_right ..).trans
      ((L.plan E pass h).length_le hranks (.init L.start_eq) hs)
  · exact getCapturedStates_single rfl
  · exact (hg.process_eq hs ht _).trans (congrArg _ ((hresult _).trans (if_pos rfl)))
  · intro p hp
    exact (hg.process_eq hs ht _).trans (congrArg _ ((hresult p).trans (if_neg hp)))
  · intro a b
    rw [hg.history_eq hs ht, hg.history_eq hs ht]
    exact (L.plan E pass h).matched a b

end Placed

section Agreeing

variable {L : Layout}

/-- A finished run of a layout on which the capture agrees. -/
structure FinishedRun (L : Layout) {ν : Type} [Zero ν] (E : ElementTypes Dtype ν)
    (pass : Pass ν) (history : ℕ → List (Event ℕ (Message ν))) : Prop where
  sender : ∀ p, p ≠ L.lastStage →
    history (L.group p) = sends (L.ppSize - 1) (L.sentTensors p pass) ∧
      (L.sentTensors p pass ≠ [] → L.Peer p (L.ppSize - 1))
  last : Replays (L.getCapturedStates L.lastStage E pass) (history (L.group L.lastStage))
    (.done (L.wholeStates E pass))
  matched : ∀ a b, receivedFrom a (history b) = sentTo b (history a)

variable {ν : Type} [Zero ν] {E : ElementTypes Dtype ν} {pass : Pass ν}
  {history : ℕ → List (Event ℕ (Message ν))}

theorem exists_finishedRun (h : L.CaptureAgrees) (hpp : L.ppSize ≠ 1)
    (E : ElementTypes Dtype ν) (pass : Pass ν) : ∃ history, FinishedRun L E pass history := by
  obtain ⟨⟨N, hN⟩, hruns⟩ := h ν E pass .unbounded
  obtain ⟨order, s, hs, ht⟩ := Transition.exists_terminal hN
  have hreach : Runs .unbounded (L.rankProcess E pass) s :=
    Transition.ReachableBy.exec (.init rfl) order hs
  obtain ⟨⟨states, hstates, hlast⟩, hothers, hmatched⟩ := hruns s hreach ht
  have hprocess : ∀ p, L.rankProcess E pass (L.group p) = L.getCapturedStates p E pass := by
    intro p
    rw [Layout.rankProcess, Layout.stageOf_eq_some.mpr rfl]
  have hreplays : ∀ p, Replays (L.getCapturedStates p E pass) (s.history (L.group p))
      (s.process (L.group p)) := by
    intro p
    rw [← hprocess]
    exact replays_history hreach (L.group p)
  refine ⟨s.history, fun p hp ↦ ?_, ?_, hmatched⟩
  · have hp' := hreplays p
    rw [hothers p hp] at hp'
    exact ((replays_sender hpp hp).mp hp').2
  · have hlast' := hreplays L.lastStage
    rw [hlast] at hlast'
    have heq : L.oneStage.wholeStates E pass = states :=
      Process.done.inj ((getCapturedStates_single rfl).symm.trans hstates)
    rwa [← heq] at hlast'

namespace FinishedRun

/-- What reaches the last stage was sent by a stage, from its own tensors. -/
theorem sentTensors_of_received (hrun : FinishedRun L E pass history) {r : ℕ}
    {t : Tensors.Tensor Dtype ν} (hpeer : L.Peer L.lastStage r)
    (hmem : .received r (.payload t) ∈ history (L.group L.lastStage)) :
    ∃ q, L.group q = r ∧ t ∈ L.sentTensors q pass := by
  obtain ⟨⟨q, rfl⟩, hne⟩ := hpeer
  have hq : q ≠ L.lastStage := fun heq ↦ hne (by rw [heq])
  have hsent := mem_receivedFrom.mpr hmem
  rw [hrun.matched, (hrun.sender q hq).1, sentTo_sends] at hsent
  split_ifs at hsent
  · obtain ⟨u, hu, ht⟩ := List.mem_flatMap.mp hsent
    refine ⟨q, rfl, ?_⟩
    rcases List.mem_cons.mp ht with ht | ht
    · cases ht
    · obtain ht := List.mem_singleton.mp ht
      obtain rfl := Message.payload.inj ht
      exact hu
  · exact absurd hsent List.not_mem_nil

theorem group_lastStage (hrun : FinishedRun L E pass history) (hpp : L.ppSize ≠ 1) :
    L.group L.lastStage = L.ppSize - 1 := by
  have hfirst := L.firstStage_ne_lastStage hpp
  have hembeds : pass.embeds ∈ L.sentTensors L.firstStage pass := by simp [Layout.sentTensors]
  obtain ⟨hhistory, hpeer⟩ := hrun.sender _ hfirst
  obtain ⟨⟨q, hq⟩, -⟩ := hpeer (List.ne_nil_of_mem hembeds)
  by_contra hne
  have hqlast : q ≠ L.lastStage := fun heq ↦ hne (by rw [← heq, hq])
  -- only the last stage receives, so the embeddings stay on their way
  have hmatched := hrun.matched (L.group L.firstStage) (L.group q)
  rw [(hrun.sender q hqlast).1, receivedFrom_sends, hhistory, sentTo_sends,
    if_pos hq.symm] at hmatched
  have hmem : .payload pass.embeds ∈ (L.sentTensors L.firstStage pass).flatMap framed :=
    List.mem_flatMap.mpr ⟨_, hembeds, by simp [framed]⟩
  rw [← hmatched] at hmem
  exact absurd hmem List.not_mem_nil

end FinishedRun

end Agreeing

section Tagged

theorem scalar_outside (n : ℕ) (index : List ℕ) (h : ¬ InBounds index [1, 1, 1]) :
    (if index = [0, 0, 0] then n else 0) = 0 := by
  refine if_neg ?_
  rintro rfl
  exact h (by decide)

def scalar (n : ℕ) : Tensors.Tensor Dtype ℕ where
  dtype := .float32
  shape := [1, 1, 1]
  entry index := if index = [0, 0, 0] then n else 0
  outside := scalar_outside n

theorem scalar_injective : Function.Injective scalar := by
  intro n m h
  have hentry := congrArg (fun t ↦ t.entry [0, 0, 0]) h
  simpa [scalar] using hentry

/-- The type that half and single precision types are promoted to. -/
def promoted (l : List Dtype) : Dtype :=
  if .float64 ∈ l then .float64
  else if .float32 ∈ l ∨ .float16 ∈ l ∧ .bfloat16 ∈ l then .float32
  else if .bfloat16 ∈ l then .bfloat16 else .float16

theorem promoted_uniform (d : Dtype) (l : List Dtype) (hd : d ∈ l) (h : ∀ e ∈ l, e = d) :
    promoted l = d := by
  have hmem : ∀ e, e ∈ l ↔ e = d := fun e ↦ ⟨h e, fun heq ↦ heq ▸ hd⟩
  rw [promoted]
  simp only [hmem]
  cases d <;> decide

theorem promoted_congr (l l' : List Dtype) (h : ∀ d, d ∈ l ↔ d ∈ l') :
    promoted l = promoted l' := by
  simp only [promoted, h]

/-- Small natural numbers, which all types represent. -/
def naturals : ElementTypes Dtype ℕ where
  isFloatingPoint _ := true
  cast _ _ v := v
  resultType := promoted
  cast_zero _ _ := rfl
  cast_self _ _ := rfl
  resultType_uniform := promoted_uniform
  resultType_congr := promoted_congr

def tagged : Pass ℕ where
  seqLen := 1
  batchSize := 1
  hiddenSize := 1
  embeds := scalar 0
  layer l := scalar (l + 1)
  embeds_shape := rfl
  embeds_dtype := rfl
  layer_shape _ := rfl
  layer_dtype _ := rfl

theorem catEntry_scalars (d : Dtype) (ns : List ℕ) (i : ℕ) :
    catEntry naturals 2 d (ns.map scalar) [0, 0, i] = ns.getD i 0 := by
  induction ns generalizing i with
  | nil => rfl
  | cons n ns ih =>
    rw [List.map_cons, catEntry]
    cases i with
    | zero => rfl
    | succ i => exact ih i

theorem catSize_scalars (ns : List ℕ) : catSize 2 (ns.map scalar) = ns.length := by
  induction ns with
  | nil => rfl
  | cons n ns ih =>
    rw [List.map_cons, catSize, List.map_cons, List.sum_cons, ← catSize, ih, List.length_cons,
      Nat.add_comm]
    rfl

theorem entry_scalars (d : Dtype) {ns : List ℕ} {i : ℕ} (hi : i < ns.length) :
    (join naturals 2 d [1, 1, 1] (ns.map scalar)).entry [0, 0, i] = ns.getD i 0 := by
  have hin : InBounds [0, 0, i] ([1, 1, 1].set 2 (catSize 2 (ns.map scalar))) := by
    rw [catSize_scalars]
    refine ⟨rfl, fun j hj ↦ ?_⟩
    have hj' : j < 3 := hj
    interval_cases j
    · exact Nat.one_pos
    · exact Nat.one_pos
    · exact hi
  exact (if_pos hin).trans (catEntry_scalars d ns i)

theorem cat_scalars (n : ℕ) (ns : List ℕ) : ∃ d, cat naturals (-1) ((n :: ns).map scalar) =
    some (join naturals 2 d [1, 1, 1] ((n :: ns).map scalar)) := by
  refine ⟨_, cat_of_shape fun u hu ↦ ?_⟩
  have hu' : u ∈ (n :: ns).map scalar := hu
  obtain ⟨k, -, rfl⟩ := List.mem_map.mp hu'
  rfl

theorem scalars_eq_of_cat {ns ms : List ℕ} (hlen : ns.length = ms.length)
    (h : cat naturals (-1) (ns.map scalar) = cat naturals (-1) (ms.map scalar)) : ns = ms := by
  cases ns with
  | nil => exact (List.length_eq_zero_iff.mp hlen.symm).symm
  | cons n ns =>
    cases ms with
    | nil => cases hlen
    | cons m ms =>
      obtain ⟨d, hd⟩ := cat_scalars n ns
      obtain ⟨e, he⟩ := cat_scalars m ms
      rw [hd, he] at h
      have hjoin := Option.some.inj h
      refine List.ext_getElem hlen fun i hi hi' ↦ ?_
      have hentry := entry_scalars d hi
      rw [hjoin, entry_scalars e hi', List.getD_eq_getElem _ _ hi,
        List.getD_eq_getElem _ _ hi'] at hentry
      exact hentry.symm

variable {L : Layout}

theorem mem_sentTensors {q : Fin L.ppSize} {n : ℕ} (h : scalar n ∈ L.sentTensors q tagged) :
    (n = 0 ∧ q = L.firstStage) ∨ ∃ l ∈ L.stageLayers q, n = l + 1 := by
  rcases List.mem_append.mp h with h | h
  · obtain ⟨l, hl, heq⟩ := List.mem_map.mp h
    exact .inr ⟨l, by simpa using (List.mem_filter.mp hl).2, (scalar_injective heq).symm⟩
  · split_ifs at h with hq
    · exact .inl ⟨scalar_injective (List.mem_singleton.mp h), hq⟩
    · exact absurd h List.not_mem_nil

theorem placed_of_captureAgrees (h : L.CaptureAgrees) : L.PlacedByPosition := by
  by_cases hpp : L.ppSize = 1
  · exact .inl hpp
  obtain ⟨history, hrun⟩ := exists_finishedRun h hpp naturals tagged
  obtain ⟨g, t, hg, hzero, hembeds, hstates⟩ := of_replays_last hpp hrun.last
  -- all that arrives is a tagged tensor, and the states tell which
  have hscalar : ∀ q u, u ∈ L.sentTensors q tagged → ∃ n, u = scalar n := by
    intro q u hu
    rcases List.mem_append.mp hu with hu | hu
    · obtain ⟨l, -, rfl⟩ := List.mem_map.mp hu
      exact ⟨l + 1, rfl⟩
    · split_ifs at hu
      · exact ⟨0, List.mem_singleton.mp hu⟩
      · exact absurd hu List.not_mem_nil
  have hvalue : ∀ l ∈ L.auxLayerIndices, ∃ n, Dict.get g l = some (scalar n) ∧
      L.FromOwner tagged (history (L.group L.lastStage)) l (scalar n) := by
    intro l hl
    obtain ⟨u, hu, hown, hother⟩ := hg.values l hl
    by_cases hlast : l ∈ L.stageLayers L.lastStage
    · exact ⟨l + 1, by rw [hu, hown hlast]; rfl, fun _ ↦ rfl, fun hno ↦ absurd hlast hno⟩
    · obtain ⟨hpeer, hmem⟩ := hother hlast
      obtain ⟨q, -, hq⟩ := hrun.sentTensors_of_received hpeer hmem
      obtain ⟨n, rfl⟩ := hscalar q u hq
      exact ⟨n, hu, hown, hother⟩
  choose! tag htag hfrom using hvalue
  obtain ⟨hcat, ht⟩ := CapturedStates.mk.inj hstates
  obtain rfl := Option.some.inj ht
  have hchunks : (L.auxLayerIndices.mergeSort (· ≤ ·)).filterMap (Dict.get g) =
      ((L.auxLayerIndices.mergeSort (· ≤ ·)).map tag).map scalar := by
    rw [List.map_map, ← List.filterMap_eq_map]
    exact List.filterMap_congr fun l hl ↦ htag l (List.mem_mergeSort.mp hl)
  have hwhole : (L.auxLayerIndices.mergeSort (· ≤ ·)).map tagged.layer =
      ((L.auxLayerIndices.mergeSort (· ≤ ·)).map (· + 1)).map scalar := by
    rw [List.map_map]
    rfl
  rw [hchunks, hwhole] at hcat
  have htags := scalars_eq_of_cat (by rw [List.length_map, List.length_map]) hcat
  have htag' : ∀ l ∈ L.auxLayerIndices, l + 1 = tag l :=
    fun l hl ↦ List.map_inj_left.mp htags l (List.mem_mergeSort.mpr hl)
  refine .inr fun p hp ↦ ?_
  by_cases hlast : p = L.lastStage
  · rw [hlast]
    exact hrun.group_lastStage hpp
  rcases hp with rfl | rfl | ⟨l, hl, hstage⟩
  · obtain ⟨q, hq, hsent⟩ := hrun.sentTensors_of_received hzero hembeds
    obtain ⟨-, rfl⟩ | ⟨l, -, hl⟩ := mem_sentTensors hsent
    · exact hq
    · omega
  · exact absurd rfl hlast
  · have hother : l ∉ L.stageLayers L.lastStage :=
      fun hmem ↦ hlast (L.stageLayers_unique p _ l hstage hmem)
    obtain ⟨hpeer, hreceived⟩ := (hfrom l hl).2 hother
    obtain ⟨q, hq, hsent⟩ := hrun.sentTensors_of_received hpeer hreceived
    obtain ⟨hzero', -⟩ | ⟨k, hk, htagk⟩ := mem_sentTensors hsent
    · have htagl := htag' l hl
      omega
    · have htagl := htag' l hl
      obtain rfl : k = l := by omega
      obtain rfl := L.stageLayers_unique q p k hk hstage
      rw [hq, L.ownerRank_of_mem hpp hstage]

end Tagged

/-- The distributed capture is the one-stage capture exactly where the stages that
communicate have their positions in the pipeline group as their global ranks. -/
theorem captureAgrees_iff (L : Layout) : L.CaptureAgrees ↔ L.PlacedByPosition :=
  ⟨placed_of_captureAgrees, captureAgrees_of_placed⟩

section TwoByTwo

theorem twoByTwo_lt : ∀ p : Fin 2, ∀ l ∈ [p.val], l < 2 := by decide

theorem twoByTwo_nodup : ∀ p : Fin 2, [p.val].Nodup := by decide

theorem twoByTwo_unique (p q : Fin 2) (l : ℕ) (hp : l ∈ [p.val]) (hq : l ∈ [q.val]) : p = q :=
  Fin.ext ((List.mem_singleton.mp hp).symm.trans (List.mem_singleton.mp hq))

theorem twoByTwo_cover (l : ℕ) (hl : l < 2) : ∃ p : Fin 2, l ∈ [p.val] :=
  ⟨⟨l, hl⟩, List.mem_singleton_self l⟩

theorem twoByTwo_aux : ∀ l ∈ [0], l < 2 := by decide

theorem twoByTwo_injective : Function.Injective fun p : Fin 2 ↦ 2 * p.val := by decide

/-- Two stages of one layer each on the global ranks 0 and 2, as with two tensor-parallel
ranks to a stage. -/
def twoByTwo : Layout where
  numLayers := 2
  ppSize := 2
  stageLayers p := [p.val]
  auxLayerIndices := [0]
  group p := 2 * p.val
  ppSize_pos := Nat.two_pos
  stageLayers_lt := twoByTwo_lt
  stageLayers_nodup := twoByTwo_nodup
  stageLayers_unique := twoByTwo_unique
  stageLayers_cover := twoByTwo_cover
  aux_lt := twoByTwo_aux
  aux_nodup := List.nodup_singleton 0
  group_injective := twoByTwo_injective

theorem not_captureAgrees_twoByTwo : ¬ twoByTwo.CaptureAgrees := by
  intro h
  have hplaced := (placed_of_captureAgrees h).resolve_left (by decide)
  exact absurd (hplaced twoByTwo.lastStage (.inr (.inl rfl))) (by decide)

end TwoByTwo

end NemoRL.Models.Draft.HiddenCapture
