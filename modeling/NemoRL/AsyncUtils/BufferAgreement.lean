import Mathlib
import NemoRL.AsyncUtils.BufferPlane

namespace NemoRL.AsyncUtils.BufferAgreement

open DataPlane Experience Foundations Foundations.Positions Foundations.Transition
open BufferPlane

variable {ρ : Type} (cfg : BufferConfig)

/-- The agreement of the buffer with the DataPlane. -/
structure Agrees (s : State ρ) : Prop where
  nodup : (names s).Nodup
  commits_nodup : (s.commits.map Commit.groupId).Nodup
  ready_iff : ∀ x ∈ holders s, x.ready = true ↔ x.kvMeta.isSome
  describes : ∀ x ∈ holders s, ∀ m ∈ x.kvMeta, DescribesGroup m x.startWeight x.groupId
  committing : ∀ c ∈ s.commits, c.groupId ∉ s.restores.flatten.map SavedGroup.groupId ∧
    ∀ x ∈ holders s, x.groupId = c.groupId →
      x.ready = false ∧ x.startWeight = c.startWeightVersion
  restoring : ∀ g ∈ s.restores.flatten, WellSaved g
  loose_free : ∀ k ∈ loose s, k.group ∉ names s ∧ k.group ∉ s.commits.map Commit.groupId
  owned : s.plane.dp.Covered (ownedIds s)
  present : s.plane.dp.Present ((holders s).flatMap Slot.rowIds)
  enriching : ∀ c ∈ s.commits, c.stage = .enrich → s.plane.dp.Present c.sampleIds
  handed_ready : ∀ x ∈ s.handedOut, x.ready = true

namespace Agrees

variable {cfg}

theorem init : Agrees (BufferPlane.init : State ρ) where
  nodup := .nil
  commits_nodup := .nil
  ready_iff := by simp [holders, BufferPlane.init]
  describes := by simp [holders, BufferPlane.init]
  committing := by simp [BufferPlane.init]
  restoring := by simp [BufferPlane.init]
  loose_free := by simp [loose, BufferPlane.init]
  owned := KeyedStore.covered_empty _
  present := by simp [KeyedStore.Present, holders, BufferPlane.init]
  enriching := by simp [BufferPlane.init]
  handed_ready := by simp [BufferPlane.init]

variable {s : State ρ}

theorem rowIds_unready (hs : Agrees s) {x : Slot} (hx : x ∈ holders s) (hr : x.ready = false) :
    x.rowIds = [] := by
  have h := hs.ready_iff x hx
  rw [hr] at h
  simp at h
  simp [Slot.rowIds, h]

theorem group_of_mem_rowIds (hs : Agrees s) {x : Slot} (hx : x ∈ holders s) {k : SampleId}
    (hk : k ∈ x.rowIds) : k.group = x.groupId := by
  unfold Slot.rowIds at hk
  cases hm : x.kvMeta with
  | none => simp [hm] at hk
  | some m =>
    rw [hm] at hk
    exact (hs.describes x hx m hm).1 k hk

theorem put (hs : Agrees s) (rows : List (SampleId × Row ρ))
    (hr : ∀ k ∈ rows.map Prod.fst, k ∈ ownedIds s) :
    Agrees { s with plane.dp := s.plane.dp.put rows } where
  nodup := hs.nodup
  commits_nodup := hs.commits_nodup
  ready_iff := hs.ready_iff
  describes := hs.describes
  committing := hs.committing
  restoring := hs.restoring
  loose_free := hs.loose_free
  owned := hs.owned.put hr
  present := hs.present.put rows
  enriching := fun c hc he ↦ (hs.enriching c hc he).put rows
  handed_ready := hs.handed_ready

theorem reserve (hs : Agrees s) {g : GroupId} (hg : Fresh s g) (w : ℕ) (t : Option ℕ) :
    Agrees { s with plane.buffer := s.plane.buffer.reserve w t g } := by
  obtain ⟨hn, hc, hl⟩ := hg
  have hp : (holders { s with plane.buffer := s.plane.buffer.reserve w t g }).Perm
      (TQReplayBuffer.reservation w t g :: holders s) := by
    simp only [holders, TQReplayBuffer.slots_reserve, List.append_assoc]
    exact List.perm_middle
  have hnames : (names { s with plane.buffer := s.plane.buffer.reserve w t g }).Perm
      (g :: names s) := ((hp.map _).append_right _)
  have hmem : ∀ x ∈ holders { s with plane.buffer := s.plane.buffer.reserve w t g },
      x = TQReplayBuffer.reservation w t g ∨ x ∈ holders s := fun x hx ↦ by
    simpa using hp.mem_iff.mp hx
  have hids : ∀ k ∈ (holders s).flatMap Slot.rowIds,
      k ∈ (holders { s with plane.buffer := s.plane.buffer.reserve w t g }).flatMap Slot.rowIds :=
    fun k hk ↦ (hp.flatMap_right Slot.rowIds).mem_iff.mpr (by simp [hk])
  exact {
    nodup := hnames.nodup_iff.mpr (List.nodup_cons.mpr ⟨hn, hs.nodup⟩)
    commits_nodup := hs.commits_nodup
    ready_iff := fun x hx ↦ by
      rcases hmem x hx with rfl | hx
      · simp [TQReplayBuffer.reservation]
      · exact hs.ready_iff x hx
    describes := fun x hx m hm ↦ by
      rcases hmem x hx with rfl | hx
      · simp [TQReplayBuffer.reservation] at hm
      · exact hs.describes x hx m hm
    committing := fun c hcm ↦ by
      refine ⟨(hs.committing c hcm).1, fun x hx hxc ↦ ?_⟩
      rcases hmem x hx with rfl | hx
      · exact absurd (List.mem_map.mpr ⟨c, hcm, hxc.symm⟩) hc
      · exact (hs.committing c hcm).2 x hx hxc
    restoring := hs.restoring
    loose_free := fun k hk ↦ by
      refine ⟨fun hmem ↦ ?_, (hs.loose_free k hk).2⟩
      rcases List.mem_cons.mp (hnames.mem_iff.mp hmem) with h | h
      · exact hl (List.mem_map.mpr ⟨k, hk, h⟩)
      · exact (hs.loose_free k hk).1 h
    owned := hs.owned.mono fun k hk ↦ by
      rcases List.mem_append.mp hk with h | h
      · exact List.mem_append.mpr (.inl (hids k h))
      · exact List.mem_append.mpr (.inr h)
    present := hs.present.mono fun k hk ↦ by
      have h := (hp.flatMap_right Slot.rowIds).mem_iff.mp hk
      simpa [TQReplayBuffer.reservation, Slot.rowIds] using h
    enriching := hs.enriching
    handed_ready := hs.handed_ready }

theorem shrink {t : State ρ} (hs : Agrees s) (gone : List Slot)
    (hp : (holders s).Perm (gone ++ holders t)) (hc : t.commits = s.commits)
    (hr : t.restores = s.restores)
    (hl : ∀ k ∈ loose t, k ∈ loose s ∨ ∃ x ∈ gone, x.ready = true ∧ k ∈ x.rowIds)
    (howned : t.plane.dp.Covered (ownedIds t))
    (hpresent : t.plane.dp.Present ((holders t).flatMap Slot.rowIds))
    (henriching : ∀ c ∈ t.commits, c.stage = .enrich → t.plane.dp.Present c.sampleIds)
    (hready : ∀ x ∈ t.handedOut, x.ready = true) : Agrees t := by
  have hsub : ∀ x ∈ holders t, x ∈ holders s := fun x hx ↦
    hp.mem_iff.mpr (List.mem_append_right _ hx)
  have hnames : (names s).Perm (gone.map Slot.groupId ++ names t) := by
    unfold names
    rw [hr, ← List.append_assoc, ← List.map_append]
    exact (hp.map _).append_right _
  have hnd : (gone.map Slot.groupId ++ names t).Nodup := hnames.nodup_iff.mp hs.nodup
  have hin : ∀ g ∈ names t, g ∈ names s := fun g hg ↦
    hnames.mem_iff.mpr (List.mem_append_right _ hg)
  exact {
    nodup := hnd.of_append_right
    commits_nodup := hc ▸ hs.commits_nodup
    ready_iff := fun x hx ↦ hs.ready_iff x (hsub x hx)
    describes := fun x hx ↦ hs.describes x (hsub x hx)
    committing := fun c hcm ↦ by
      rw [hc] at hcm
      obtain ⟨h₁, h₂⟩ := hs.committing c hcm
      exact ⟨hr ▸ h₁, fun x hx ↦ h₂ x (hsub x hx)⟩
    restoring := hr ▸ hs.restoring
    loose_free := fun k hk ↦ by
      rw [hc]
      rcases hl k hk with h | ⟨x, hx, hxr, hkx⟩
      · exact ⟨fun hg ↦ (hs.loose_free k h).1 (hin _ hg), (hs.loose_free k h).2⟩
      · have hxs : x ∈ holders s := hp.mem_iff.mpr (List.mem_append_left _ hx)
        rw [hs.group_of_mem_rowIds hxs hkx]
        refine ⟨fun hg ↦ ?_, fun hg ↦ ?_⟩
        · exact (List.nodup_append.mp hnd).2.2 _ (List.mem_map_of_mem hx) _ hg rfl
        · obtain ⟨c, hcm, hcx⟩ := List.mem_map.mp hg
          have h := ((hs.committing c hcm).2 x hxs hcx.symm).1
          simp [hxr] at h
    owned := howned
    present := hpresent
    enriching := henriching
    handed_ready := hready }

theorem remove_dropped {idxs : List ℕ} {b : TQReplayBuffer} {ids : List SampleId}
    (hnd : idxs.Nodup) (h : s.plane.buffer.remove idxs = (b, some ids)) :
    s.plane.buffer.slots.Perm (entriesAt s.plane.buffer.slots idxs ++ b.slots) ∧
      ids.Perm ((entriesAt s.plane.buffer.slots idxs).flatMap Slot.rowIds) := by
  have hi := TQReplayBuffer.lt_size_of_remove (congrArg Prod.snd h)
  obtain ⟨h₁, ids', h₂, h₃⟩ := TQReplayBuffer.remove_spec hnd hi
  rw [h] at h₁ h₂
  obtain rfl := Option.some.inj h₂
  refine ⟨?_, h₃⟩
  rw [h₁]
  exact dropAll_perm hnd fun i hmem ↦ by
    rw [TQReplayBuffer.length_slots]
    exact hi i hmem

theorem remove (hs : Agrees s) {idxs : List ℕ} (hnd : idxs.Nodup) (removeInDp : Bool) :
    Agrees (remove s idxs removeInDp) := by
  unfold BufferPlane.remove
  cases hr : s.plane.buffer.remove idxs with
  | mk b r =>
  cases r with
  | none =>
    have hb := TQReplayBuffer.remove_eq_none hnd (congrArg Prod.snd hr)
    rw [hr] at hb
    simp only at hb ⊢
    rw [hb]
    exact hs
  | some ids =>
    obtain ⟨hp, hids⟩ := remove_dropped hnd hr
    simp only
    split_ifs with hnil hdp
    · exact hs
    · have hperm : (holders s).Perm (entriesAt s.plane.buffer.slots idxs ++
          (b.slots ++ s.handedOut)) := by
        rw [← List.append_assoc]
        exact hp.append_right _
      have hidm : ∀ k ∈ ids, ∃ x ∈ entriesAt s.plane.buffer.slots idxs, k ∈ x.rowIds :=
        fun k hk ↦ List.mem_flatMap.mp (hids.mem_iff.mp hk)
      refine hs.shrink _ hperm rfl rfl (fun k hk ↦ ?_) (hs.owned.mono fun k hk ↦ ?_)
        (hs.present.mono fun k hk ↦ ?_) hs.enriching hs.handed_ready
      · simp only [loose, List.flatten_append, List.flatten_cons, List.flatten_nil,
          List.append_nil, List.mem_append] at hk ⊢
        rcases hk with (hk | hk) | hk
        · exact .inl (.inl hk)
        · obtain ⟨x, hx, hkx⟩ := hidm k hk
          have hxs : x ∈ holders s := hperm.mem_iff.mpr (List.mem_append_left _ hx)
          refine .inr ⟨x, hx, ?_, hkx⟩
          by_contra hready
          rw [hs.rowIds_unready hxs (by simpa using hready)] at hkx
          simp at hkx
        · exact .inl (.inr hk)
      · have h := (hperm.flatMap_right Slot.rowIds).mem_iff (a := k)
        have hi := hids.mem_iff (a := k)
        simp only [ownedIds, loose, holders, heads, List.flatMap_append, List.flatten_append,
          List.flatten_cons, List.flatten_nil, List.append_nil, List.mem_append] at hk h hi ⊢
        tauto
      · exact ((hperm.flatMap_right Slot.rowIds).mem_iff).mpr (by
          rw [List.flatMap_append]
          exact List.mem_append_right _ hk)
    · have hsplit := List.filter_append_perm Slot.ready (entriesAt s.plane.buffer.slots idxs)
      have hperm : (holders s).Perm
          ((entriesAt s.plane.buffer.slots idxs).filter (fun x ↦ !x.ready) ++
            (b.slots ++ (s.handedOut ++
              (entriesAt s.plane.buffer.slots idxs).filter Slot.ready))) := by
        refine ((hp.trans (hsplit.symm.append_right _)).append_right s.handedOut).trans ?_
        grind [List.Perm, List.perm_append_comm]
      have hgone : ∀ x ∈ (entriesAt s.plane.buffer.slots idxs).filter (fun x ↦ !x.ready),
          x.rowIds = [] := fun x hx ↦
        hs.rowIds_unready (hperm.mem_iff.mpr (List.mem_append_left _ hx))
          (by simpa using (List.mem_filter.mp hx).2)
      refine hs.shrink _ hperm rfl rfl (fun k hk ↦ .inl hk) (hs.owned.mono fun k hk ↦ ?_)
        (hs.present.mono fun k hk ↦ ?_) hs.enriching (fun x hx ↦ ?_)
      · have h := (hperm.flatMap_right Slot.rowIds).mem_iff (a := k)
        have hnone : k ∉ ((entriesAt s.plane.buffer.slots idxs).filter
            (fun x ↦ !x.ready)).flatMap Slot.rowIds := fun hk ↦ by
          obtain ⟨x, hx, hkx⟩ := List.mem_flatMap.mp hk
          simp [hgone x hx] at hkx
        simp only [ownedIds, loose, holders, heads, List.flatMap_append,
          List.mem_append] at hk h ⊢
        tauto
      · exact ((hperm.flatMap_right Slot.rowIds).mem_iff).mpr (by
          rw [List.flatMap_append]
          exact List.mem_append_right _ hk)
      · rcases List.mem_append.mp hx with h | h
        · exact hs.handed_ready x h
        · exact (List.mem_filter.mp h).2

theorem evicted (hs : Agrees s) {i : ℕ} {ids : List SampleId} (hi : s.evictions[i]? = some ids) :
    Agrees { s with
      plane.dp := s.plane.dp.clear ids
      evictions := s.evictions.eraseIdx i } := by
  have hp := (perm_cons_eraseIdx hi).flatten
  have hgone : ∀ k ∈ ids, k.group ∉ names s ∧ k.group ∉ s.commits.map Commit.groupId :=
    fun k hk ↦ hs.loose_free k
      (List.mem_append_left _ (hp.mem_iff.mpr (List.mem_append_left _ hk)))
  refine hs.shrink [] (List.Perm.refl _) rfl rfl (fun k hk ↦ .inl ?_)
    (hs.owned.clear fun k hk ↦ ?_) (hs.present.clear fun k hk hkg ↦ ?_)
    (fun c hc he ↦ (hs.enriching c hc he).clear fun k hk hkg ↦ ?_) hs.handed_ready
  · have h := hp.mem_iff (a := k)
    simp only [loose, List.flatten_cons, List.mem_append] at hk h ⊢
    tauto
  · have h := hp.mem_iff (a := k)
    simp only [ownedIds, loose, holders, heads, List.flatten_cons, List.mem_append] at hk h ⊢
    tauto
  · obtain ⟨x, hx, hkx⟩ := List.mem_flatMap.mp hk
    refine (hgone k hkg).1 (List.mem_append_left _ (List.mem_map.mpr ⟨x, hx, ?_⟩))
    exact (hs.group_of_mem_rowIds hx hkx).symm
  · refine (hgone k hkg).2 (List.mem_map.mpr ⟨c, hc, ?_⟩)
    exact (PromptGroupRecord.mem_sampleIds.mp hk).1.symm

theorem abandon (hs : Agrees s) {i : ℕ} {ids : List SampleId} (hi : s.evictions[i]? = some ids) :
    Agrees { s with
      evictions := s.evictions.eraseIdx i
      abandoned := s.abandoned ++ ids } := by
  have hp := (perm_cons_eraseIdx hi).flatten
  refine hs.shrink [] (List.Perm.refl _) rfl rfl (fun k hk ↦ .inl ?_)
    (hs.owned.mono fun k hk ↦ ?_) hs.present hs.enriching hs.handed_ready
  · have h := hp.mem_iff (a := k)
    simp only [loose, List.flatten_cons, List.mem_append] at hk h ⊢
    tauto
  · have h := hp.mem_iff (a := k)
    simp only [ownedIds, loose, holders, heads, List.flatten_cons, List.mem_append] at hk h ⊢
    tauto

theorem trainerClear (hs : Agrees s) {i : ℕ} {x : Slot} (hi : s.handedOut[i]? = some x) :
    Agrees { s with
      plane.dp := s.plane.dp.clear x.rowIds
      handedOut := s.handedOut.eraseIdx i } := by
  have hx : x ∈ holders s := List.mem_append_right _ (List.mem_of_getElem? hi)
  have hperm : (holders s).Perm ([x] ++ (s.plane.buffer.slots ++ s.handedOut.eraseIdx i)) :=
    ((perm_cons_eraseIdx hi).append_left _).trans List.perm_middle
  have hnames : (names s).Perm (x.groupId :: ((s.plane.buffer.slots ++
      s.handedOut.eraseIdx i).map Slot.groupId ++
      s.restores.flatten.map SavedGroup.groupId)) := (hperm.map _).append_right _
  have hnew := (List.nodup_cons.mp (hnames.nodup_iff.mp hs.nodup)).1
  refine hs.shrink [x] hperm rfl rfl (fun k hk ↦ .inl hk) (hs.owned.clear fun k hk ↦ ?_)
    (KeyedStore.Present.clear (hs.present.mono fun k hk ↦ ?_) fun k hk hkx ↦ ?_)
    (fun c hc he ↦ (hs.enriching c hc he).clear fun k hk hkx ↦ ?_)
    (fun y hy ↦ hs.handed_ready y (List.mem_of_mem_eraseIdx hy))
  · have h := (hperm.flatMap_right Slot.rowIds).mem_iff (a := k)
    simp only [ownedIds, loose, holders, heads, List.flatMap_append, List.flatMap_cons,
      List.flatMap_nil, List.append_nil, List.mem_append] at hk h ⊢
    tauto
  · exact ((hperm.flatMap_right Slot.rowIds).mem_iff).mpr (by
      rw [List.flatMap_append]
      exact List.mem_append_right _ hk)
  · obtain ⟨y, hy, hky⟩ := List.mem_flatMap.mp hk
    have hys : y ∈ holders s := hperm.mem_iff.mpr (List.mem_append_right _ hy)
    refine hnew (List.mem_append_left _ (List.mem_map.mpr ⟨y, hy, ?_⟩))
    rw [← hs.group_of_mem_rowIds hys hky, hs.group_of_mem_rowIds hx hkx]
  · have hg := (hs.group_of_mem_rowIds hx hkx).symm.trans (PromptGroupRecord.mem_sampleIds.mp hk).1
    have h := ((hs.committing c hc).2 x hx hg).1
    rw [hs.handed_ready x (List.mem_of_getElem? hi)] at h
    simp at h

theorem commit (hs : Agrees s) {c : Commit ρ} (hg : c.groupId ∈ s.plane.buffer.groupIds)
    (hc : c.groupId ∉ s.commits.map Commit.groupId) (hstage : c.stage = .put)
    (hslot : ∀ x ∈ s.plane.buffer.slots, x.groupId = c.groupId →
      x.ready = false ∧ x.startWeight = c.startWeightVersion) :
    Agrees { s with commits := s.commits ++ [c] } := by
  have hname : c.groupId ∈ s.plane.buffer.slots.map Slot.groupId := by
    rwa [TQReplayBuffer.map_groupId_slots]
  obtain ⟨x₀, hx₀, hx₀g⟩ := List.mem_map.mp hname
  have hnd := hs.nodup
  simp only [names, holders, List.map_append, List.append_assoc] at hnd
  have hother := fun g hg' ↦ (List.nodup_append.mp hnd).2.2 c.groupId hname g hg'
  have hmem : ∀ d ∈ s.commits ++ [c], d ∈ s.commits ∨ d = c := fun d hd ↦ by simpa using hd
  exact {
    nodup := hs.nodup
    commits_nodup := by
      rw [List.map_append, List.nodup_append]
      refine ⟨hs.commits_nodup, by simp, fun a ha b hb ↦ ?_⟩
      obtain rfl : b = c.groupId := by simpa using hb
      exact fun h ↦ hc (h ▸ ha)
    ready_iff := hs.ready_iff
    describes := hs.describes
    committing := fun d hd ↦ by
      rcases hmem d hd with hd | rfl
      · exact hs.committing d hd
      · refine ⟨fun h ↦ hother _ (List.mem_append_right _ h) rfl, fun x hx hxd ↦ ?_⟩
        rcases List.mem_append.mp hx with hx | hx
        · exact hslot x hx hxd
        · exact absurd hxd.symm
            (hother _ (List.mem_append_left _ (List.mem_map_of_mem hx)))
    restoring := hs.restoring
    loose_free := fun k hk ↦ by
      obtain ⟨h₁, h₂⟩ := hs.loose_free k hk
      refine ⟨h₁, fun h ↦ ?_⟩
      rw [List.map_append, List.mem_append] at h
      rcases h with h | h
      · exact h₂ h
      · have hkc : k.group = c.groupId := by simpa using h
        exact h₁ (List.mem_append_left _ (List.mem_map.mpr
          ⟨x₀, List.mem_append_left _ hx₀, hx₀g.trans hkc.symm⟩))
    owned := hs.owned.mono fun k hk ↦ by
      simp only [ownedIds, holders, loose, heads, List.flatMap_append, List.mem_append] at hk ⊢
      tauto
    present := hs.present
    enriching := fun d hd he ↦ by
      rcases hmem d hd with hd | rfl
      · exact hs.enriching d hd he
      · simp [hstage] at he
    handed_ready := hs.handed_ready }

theorem setStage (hs : Agrees s) {i : ℕ} {c : Commit ρ} (hi : s.commits[i]? = some c)
    {stage : CommitStage} (he : stage = .enrich → s.plane.dp.Present c.sampleIds) :
    Agrees { s with commits := s.commits.set i { c with stage := stage } } := by
  have hgroups : (s.commits.set i { c with stage := stage }).map Commit.groupId =
      s.commits.map Commit.groupId := map_set_of_eq Commit.groupId hi { c with stage := stage } rfl
  have hids : (s.commits.set i { c with stage := stage }).flatMap Commit.sampleIds =
      s.commits.flatMap Commit.sampleIds := by
    have h := map_set_of_eq Commit.sampleIds hi { c with stage := stage } rfl
    rw [List.flatMap_def, List.flatMap_def, h]
  have hmem : ∀ d ∈ s.commits.set i { c with stage := stage },
      d = { c with stage := stage } ∨ d ∈ s.commits := fun d hd ↦
    (List.mem_or_eq_of_mem_set hd).symm
  have hc : c ∈ s.commits := List.mem_of_getElem? hi
  exact {
    nodup := hs.nodup
    commits_nodup := by rw [hgroups]; exact hs.commits_nodup
    ready_iff := hs.ready_iff
    describes := hs.describes
    committing := fun d hd ↦ by
      rcases hmem d hd with rfl | hd
      · exact hs.committing c hc
      · exact hs.committing d hd
    restoring := hs.restoring
    loose_free := fun k hk ↦ by
      rw [hgroups]
      exact hs.loose_free k hk
    owned := by
      unfold ownedIds
      rw [hids]
      exact hs.owned
    present := hs.present
    enriching := fun d hd hde ↦ by
      rcases hmem d hd with rfl | hd
      · exact he hde
      · exact hs.enriching d hd hde
    handed_ready := hs.handed_ready }

theorem fill (hs : Agrees s) {i j : ℕ} {c : Commit ρ} {x : Slot} {m : KVBatchMeta}
    {b : TQReplayBuffer} (hi : s.commits[i]? = some c) (hj : s.plane.buffer.slots[j]? = some x)
    (hg : x.groupId = c.groupId) (hm : c.Describes m)
    (hb : b.slots = s.plane.buffer.slots.set j (x.filled m c.endWeightVersion))
    (hp : s.plane.dp.Present c.sampleIds) :
    Agrees { s with plane.buffer := b, commits := s.commits.eraseIdx i } := by
  have hc : c ∈ s.commits := List.mem_of_getElem? hi
  have hx : x ∈ holders s := List.mem_append_left _ (List.mem_of_getElem? hj)
  obtain ⟨hxr, hxw⟩ := (hs.committing c hc).2 x hx hg
  have hcommits := perm_cons_eraseIdx hi
  have hbefore : (holders s).Perm (x :: (s.plane.buffer.slots.eraseIdx j ++ s.handedOut)) :=
    (perm_cons_eraseIdx hj).append_right _
  have hafter : (holders { s with plane.buffer := b, commits := s.commits.eraseIdx i }).Perm
      (x.filled m c.endWeightVersion ::
        (s.plane.buffer.slots.eraseIdx j ++ s.handedOut)) := by
    simp only [holders, hb]
    exact (set_perm hj _).append_right _
  have hnames : (names { s with plane.buffer := b, commits := s.commits.eraseIdx i }).Perm
      (names s) := ((hafter.map _).trans (hbefore.map Slot.groupId).symm).append_right _
  have hmem : ∀ y ∈ holders { s with plane.buffer := b, commits := s.commits.eraseIdx i },
      y = x.filled m c.endWeightVersion ∨ (y ∈ holders s ∧ y.groupId ≠ c.groupId) := by
    intro y hy
    rcases List.mem_cons.mp (hafter.mem_iff.mp hy) with rfl | hy
    · exact .inl rfl
    · refine .inr ⟨hbefore.mem_iff.mpr (List.mem_cons_of_mem _ hy), fun hyc ↦ ?_⟩
      have hnd := ((hbefore.map Slot.groupId).append_right _).nodup_iff.mp hs.nodup
      refine (List.nodup_cons.mp hnd).1 (List.mem_append_left _ (List.mem_map.mpr ⟨y, hy, ?_⟩))
      exact hyc.trans hg.symm
  have hgroups : ((s.commits.map Commit.groupId).Perm
      (c.groupId :: (s.commits.eraseIdx i).map Commit.groupId)) := hcommits.map _
  have hnew : c.groupId ∉ (s.commits.eraseIdx i).map Commit.groupId :=
    (List.nodup_cons.mp (hgroups.nodup_iff.mp hs.commits_nodup)).1
  have hids : (x.filled m c.endWeightVersion).rowIds = c.sampleIds := hm.1
  exact {
    nodup := hnames.nodup_iff.mpr hs.nodup
    commits_nodup := (List.nodup_cons.mp (hgroups.nodup_iff.mp hs.commits_nodup)).2
    ready_iff := fun y hy ↦ by
      rcases hmem y hy with rfl | ⟨hy, _⟩
      · simp [Slot.filled]
      · exact hs.ready_iff y hy
    describes := fun y hy n hn ↦ by
      rcases hmem y hy with rfl | ⟨hy, _⟩
      · obtain rfl : m = n := by simpa [Slot.filled] using hn
        refine ⟨fun k hk ↦ ?_, ?_⟩
        · rw [hm.1] at hk
          exact (PromptGroupRecord.mem_sampleIds.mp hk).1.trans hg.symm
        · rw [hm.2.1, hm.1]
          simp [PromptGroupRecord.tags, Commit.sampleIds, PromptGroupRecord.sampleIds,
            Slot.filled, hxw]
      · exact hs.describes y hy n hn
    committing := fun d hd ↦ by
      have hds : d ∈ s.commits := List.mem_of_mem_eraseIdx hd
      refine ⟨(hs.committing d hds).1, fun y hy hyd ↦ ?_⟩
      rcases hmem y hy with rfl | ⟨hy, _⟩
      · refine absurd (List.mem_map.mpr ⟨d, hd, ?_⟩) hnew
        exact hyd.symm.trans hg
      · exact (hs.committing d hds).2 y hy hyd
    restoring := hs.restoring
    loose_free := fun k hk ↦ by
      obtain ⟨h₁, h₂⟩ := hs.loose_free k hk
      exact ⟨fun h ↦ h₁ (hnames.mem_iff.mp h), fun h ↦ h₂ (hgroups.mem_iff.mpr
        (List.mem_cons_of_mem _ h))⟩
    owned := hs.owned.mono fun k hk ↦ by
      have h₁ := (hbefore.flatMap_right Slot.rowIds).mem_iff (a := k)
      have h₂ := (hafter.flatMap_right Slot.rowIds).mem_iff (a := k)
      have h₃ := (hcommits.flatMap_right Commit.sampleIds).mem_iff (a := k)
      rw [List.flatMap_cons, hs.rowIds_unready hx hxr, List.nil_append] at h₁
      rw [List.flatMap_cons, hids, List.mem_append] at h₂
      rw [List.flatMap_cons, List.mem_append] at h₃
      simp only [ownedIds, List.mem_append] at hk ⊢
      rcases hk with hk | hk | hk
      · exact .inl (h₂.mpr (.inr (h₁.mp hk)))
      · rcases h₃.mp hk with hk | hk
        · exact .inl (h₂.mpr (.inl hk))
        · exact .inr (.inl hk)
      · exact .inr (.inr hk)
    present := fun k hk ↦ by
      have h₁ := (hbefore.flatMap_right Slot.rowIds).mem_iff (a := k)
      have h₂ := (hafter.flatMap_right Slot.rowIds).mem_iff (a := k)
      rw [List.flatMap_cons, hs.rowIds_unready hx hxr, List.nil_append] at h₁
      rw [List.flatMap_cons, hids, List.mem_append] at h₂
      rcases h₂.mp hk with hk | hk
      · exact hp k hk
      · exact hs.present k (h₁.mpr hk)
    enriching := fun d hd ↦ hs.enriching d (List.mem_of_mem_eraseIdx hd)
    handed_ready := hs.handed_ready }

theorem rollback (hs : Agrees s) {i : ℕ} {c : Commit ρ} (hi : s.commits[i]? = some c) :
    Agrees { s with
      plane.dp := s.plane.dp.clear c.sampleIds
      commits := s.commits.eraseIdx i } := by
  have hc : c ∈ s.commits := List.mem_of_getElem? hi
  have hcommits := perm_cons_eraseIdx hi
  have hgroups : ((s.commits.map Commit.groupId).Perm
      (c.groupId :: (s.commits.eraseIdx i).map Commit.groupId)) := hcommits.map _
  have hnd := List.nodup_cons.mp (hgroups.nodup_iff.mp hs.commits_nodup)
  exact {
    nodup := hs.nodup
    commits_nodup := hnd.2
    ready_iff := hs.ready_iff
    describes := hs.describes
    committing := fun d hd ↦ hs.committing d (List.mem_of_mem_eraseIdx hd)
    restoring := hs.restoring
    loose_free := fun k hk ↦ by
      obtain ⟨h₁, h₂⟩ := hs.loose_free k hk
      exact ⟨h₁, fun h ↦ h₂ (hgroups.mem_iff.mpr (List.mem_cons_of_mem _ h))⟩
    owned := hs.owned.clear fun k hk ↦ by
      have h := (hcommits.flatMap_right Commit.sampleIds).mem_iff (a := k)
      simp only [ownedIds, loose, holders, heads, List.flatMap_cons, List.mem_append] at hk h ⊢
      tauto
    present := hs.present.clear fun k hk hkc ↦ by
      obtain ⟨x, hx, hkx⟩ := List.mem_flatMap.mp hk
      have hg := (hs.group_of_mem_rowIds hx hkx).symm.trans
        (PromptGroupRecord.mem_sampleIds.mp hkc).1
      rw [hs.rowIds_unready hx ((hs.committing c hc).2 x hx hg).1] at hkx
      simp at hkx
    enriching := fun d hd he ↦
      (hs.enriching d (List.mem_of_mem_eraseIdx hd) he).clear fun k hkd hkc ↦ by
        refine hnd.1 (List.mem_map.mpr ⟨d, hd, ?_⟩)
        exact (PromptGroupRecord.mem_sampleIds.mp hkd).1.symm.trans
          (PromptGroupRecord.mem_sampleIds.mp hkc).1
    handed_ready := hs.handed_ready }

theorem load (hs : Agrees s) {gs : List (SavedGroup ρ)} (hnd : (gs.map SavedGroup.groupId).Nodup)
    (hg : ∀ g ∈ gs, WellSaved g ∧ Fresh s g.groupId) :
    Agrees { s with restores := s.restores ++ [gs] } := by
  have hflat : (s.restores ++ [gs]).flatten = s.restores.flatten ++ gs := by simp
  have hnames : names { s with restores := s.restores ++ [gs] } =
      names s ++ gs.map SavedGroup.groupId := by
    simp [names, holders]
  exact {
    nodup := by
      rw [hnames, List.nodup_append]
      refine ⟨hs.nodup, hnd, fun a ha b hb hab ↦ ?_⟩
      obtain ⟨g, hgm, rfl⟩ := List.mem_map.mp hb
      exact (hg g hgm).2.1 (hab ▸ ha)
    commits_nodup := hs.commits_nodup
    ready_iff := hs.ready_iff
    describes := hs.describes
    committing := fun c hc ↦ by
      refine ⟨fun h ↦ ?_, (hs.committing c hc).2⟩
      simp only [hflat, List.map_append, List.mem_append] at h
      rcases h with h | h
      · exact (hs.committing c hc).1 h
      · obtain ⟨g, hgm, hgc⟩ := List.mem_map.mp h
        exact (hg g hgm).2.2.1 (List.mem_map.mpr ⟨c, hc, hgc.symm⟩)
    restoring := fun g h ↦ by
      simp only [hflat, List.mem_append] at h
      rcases h with h | h
      · exact hs.restoring g h
      · exact (hg g h).1
    loose_free := fun k hk ↦ by
      refine ⟨fun h ↦ ?_, (hs.loose_free k hk).2⟩
      rw [hnames, List.mem_append] at h
      rcases h with h | h
      · exact (hs.loose_free k hk).1 h
      · obtain ⟨g, hgm, hgk⟩ := List.mem_map.mp h
        exact (hg g hgm).2.2.2 (List.mem_map.mpr ⟨k, hk, hgk.symm⟩)
    owned := hs.owned.mono fun k hk ↦ by
      simp only [ownedIds, loose, holders, heads, List.filterMap_append, List.flatMap_append,
        List.mem_append] at hk ⊢
      tauto
    present := hs.present
    enriching := hs.enriching
    handed_ready := hs.handed_ready }

theorem map_fst_rows {g : SavedGroup ρ} (hg : WellSaved g) :
    g.rows.map Prod.fst = g.kvMeta.sampleIds := by
  obtain ⟨⟨_, htags⟩, hlen⟩ := hg
  have h : (g.kvMeta.sampleIds.zip (g.fieldsData.zip (g.kvMeta.tags.getD []))).map Prod.fst =
      g.kvMeta.sampleIds := by
    rw [List.map_fst_zip]
    simp [htags, hlen]
  rw [SavedGroup.rows, List.map_map]
  exact h

theorem flatten_restores {i : ℕ} {g : SavedGroup ρ} {rest : List (SavedGroup ρ)}
    (hi : s.restores[i]? = some (g :: rest)) {rs : List (List (SavedGroup ρ))}
    (hrs : rs = if rest = [] then s.restores.eraseIdx i else s.restores.set i rest) :
    s.restores.flatten.Perm (g :: rs.flatten) ∧
      ∀ h ∈ heads s, h = g ∨ h ∈ rs.filterMap List.head? := by
  have h₁ := perm_cons_eraseIdx hi
  have hheads : ∀ h ∈ heads s, h = g ∨ h ∈ (s.restores.eraseIdx i).filterMap List.head? := by
    intro h hh
    have hh' := (h₁.filterMap List.head?).mem_iff.mp hh
    simpa using hh'
  subst hrs
  split_ifs with hrest
  · subst hrest
    exact ⟨by simpa using h₁.flatten, hheads⟩
  · have h₂ := set_perm hi rest
    refine ⟨?_, fun h hh ↦ (hheads h hh).imp_right fun hmem ↦ ?_⟩
    · have h₃ := (h₂.flatten.cons g).symm
      refine h₁.flatten.trans ?_
      simpa using h₃
    · obtain ⟨q, hq, hqh⟩ := List.mem_filterMap.mp hmem
      exact List.mem_filterMap.mpr ⟨q, h₂.mem_iff.mpr (List.mem_cons_of_mem _ hq), hqh⟩

theorem restored (hs : Agrees s) {i : ℕ} {g : SavedGroup ρ} {rest : List (SavedGroup ρ)}
    (hi : s.restores[i]? = some (g :: rest)) {rs : List (List (SavedGroup ρ))}
    (hrs : rs = if rest = [] then s.restores.eraseIdx i else s.restores.set i rest) :
    Agrees { s with plane := TQReplayBuffer.restoreGroup s.plane g, restores := rs } := by
  obtain ⟨hflat, hheads⟩ := flatten_restores hi hrs
  have hgm : g ∈ s.restores.flatten := hflat.mem_iff.mpr (by simp)
  have hsaved := hs.restoring g hgm
  have hholders : (holders { s with
      plane := TQReplayBuffer.restoreGroup s.plane g, restores := rs }).Perm
      (g.toSlot :: holders s) := by
    simp only [holders, TQReplayBuffer.slots_restoreGroup, List.append_assoc]
    exact List.perm_middle
  have hnames : (names { s with
      plane := TQReplayBuffer.restoreGroup s.plane g, restores := rs }).Perm (names s) := by
    refine ((hholders.map Slot.groupId).append_right _).trans ?_
    have h := (hflat.map SavedGroup.groupId).append_left ((holders s).map Slot.groupId)
    exact (h.trans List.perm_middle).symm
  have hmem : ∀ x ∈ holders { s with
      plane := TQReplayBuffer.restoreGroup s.plane g, restores := rs },
      x = g.toSlot ∨ x ∈ holders s := fun x hx ↦ List.mem_cons.mp (hholders.mem_iff.mp hx)
  have hids : ∀ k, k ∈ (holders { s with
      plane := TQReplayBuffer.restoreGroup s.plane g, restores := rs }).flatMap Slot.rowIds ↔
      k ∈ g.kvMeta.sampleIds ∨ k ∈ (holders s).flatMap Slot.rowIds := fun k ↦ by
    rw [(hholders.flatMap_right Slot.rowIds).mem_iff, List.flatMap_cons, List.mem_append]
    rfl
  have hrows := map_fst_rows hsaved
  exact {
    nodup := hnames.nodup_iff.mpr hs.nodup
    commits_nodup := hs.commits_nodup
    ready_iff := fun x hx ↦ by
      rcases hmem x hx with rfl | hx
      · simp [SavedGroup.toSlot]
      · exact hs.ready_iff x hx
    describes := fun x hx m hm ↦ by
      rcases hmem x hx with rfl | hx
      · obtain rfl : g.kvMeta = m := by simpa [SavedGroup.toSlot] using hm
        exact hsaved.1
      · exact hs.describes x hx m hm
    committing := fun c hc ↦ by
      obtain ⟨h₁, h₂⟩ := hs.committing c hc
      refine ⟨fun h ↦ h₁ ((hflat.map _).mem_iff.mpr (List.mem_cons_of_mem _ h)),
        fun x hx hxc ↦ ?_⟩
      rcases hmem x hx with rfl | hx
      · exact absurd (List.mem_map.mpr ⟨g, hgm, hxc⟩) h₁
      · exact h₂ x hx hxc
    restoring := fun h hh ↦ hs.restoring h (hflat.mem_iff.mpr (List.mem_cons_of_mem _ hh))
    loose_free := fun k hk ↦ by
      obtain ⟨h₁, h₂⟩ := hs.loose_free k hk
      exact ⟨fun h ↦ h₁ (hnames.mem_iff.mp h), h₂⟩
    owned := (hs.owned.mono fun k hk ↦ by
      simp only [ownedIds, List.mem_append, hids] at hk ⊢
      rcases hk with hk | hk | hk | hk
      · exact .inl (.inr hk)
      · exact .inr (.inl hk)
      · exact .inr (.inr (.inl hk))
      · obtain ⟨h, hh, hkh⟩ := List.mem_flatMap.mp hk
        rcases hheads h hh with rfl | hh
        · exact .inl (.inl hkh)
        · exact .inr (.inr (.inr (List.mem_flatMap.mpr ⟨h, hh, hkh⟩)))).put fun k hk ↦ by
      rw [hrows] at hk
      exact List.mem_append_left _ ((hids k).mpr (.inl hk))
    present := fun k hk ↦ by
      rcases (hids k).mp hk with hk | hk
      · exact KeyedStore.present_put _ _ k (hrows ▸ hk)
      · exact hs.present.put _ k hk
    enriching := fun c hc he ↦ (hs.enriching c hc he).put _
    handed_ready := hs.handed_ready }

theorem abandonRestore (hs : Agrees s) {i : ℕ} {g : SavedGroup ρ} {rest : List (SavedGroup ρ)}
    (hi : s.restores[i]? = some (g :: rest)) :
    Agrees { s with
      restores := s.restores.eraseIdx i
      abandoned := s.abandoned ++ g.kvMeta.sampleIds } := by
  have hflat : s.restores.flatten.Perm (g :: (rest ++ (s.restores.eraseIdx i).flatten)) := by
    simpa using (perm_cons_eraseIdx hi).flatten
  have hgm : g ∈ s.restores.flatten := hflat.mem_iff.mpr (by simp)
  have hnames : (names s).Perm (g.groupId :: (rest.map SavedGroup.groupId ++
      names { s with
        restores := s.restores.eraseIdx i
        abandoned := s.abandoned ++ g.kvMeta.sampleIds })) := by
    have h := (hflat.map SavedGroup.groupId).append_left ((holders s).map Slot.groupId)
    refine h.trans ((List.perm_middle).trans (List.Perm.cons _ ?_))
    rw [List.map_append, names, ← List.append_assoc, ← List.append_assoc]
    exact (List.perm_append_comm).append_right _
  have hin : ∀ x ∈ names { s with
      restores := s.restores.eraseIdx i
      abandoned := s.abandoned ++ g.kvMeta.sampleIds }, x ∈ names s := fun x hx ↦
    hnames.mem_iff.mpr (List.mem_cons_of_mem _ (List.mem_append_right _ hx))
  have hnd := List.nodup_cons.mp (hnames.nodup_iff.mp hs.nodup)
  have hloose : ∀ k, k ∈ loose { s with
      restores := s.restores.eraseIdx i
      abandoned := s.abandoned ++ g.kvMeta.sampleIds } ↔
      k ∈ loose s ∨ k ∈ g.kvMeta.sampleIds := fun k ↦ by
    simp only [loose, List.mem_append]
    tauto
  exact {
    nodup := hnd.2.of_append_right
    commits_nodup := hs.commits_nodup
    ready_iff := hs.ready_iff
    describes := hs.describes
    committing := fun c hc ↦ by
      obtain ⟨h₁, h₂⟩ := hs.committing c hc
      refine ⟨fun h ↦ h₁ ((hflat.map _).mem_iff.mpr (List.mem_cons_of_mem _ ?_)), h₂⟩
      rw [List.map_append]
      exact List.mem_append_right _ h
    restoring := fun h hh ↦ hs.restoring h (hflat.mem_iff.mpr
      (List.mem_cons_of_mem _ (List.mem_append_right _ hh)))
    loose_free := fun k hk ↦ by
      rcases (hloose k).mp hk with hk | hk
      · obtain ⟨h₁, h₂⟩ := hs.loose_free k hk
        exact ⟨fun h ↦ h₁ (hin _ h), h₂⟩
      · rw [(hs.restoring g hgm).1.1 k hk]
        refine ⟨fun h ↦ hnd.1 (List.mem_append_right _ h), fun h ↦ ?_⟩
        obtain ⟨c, hc, hcg⟩ := List.mem_map.mp h
        exact (hs.committing c hc).1 (List.mem_map.mpr ⟨g, hgm, hcg.symm⟩)
    owned := hs.owned.mono fun k hk ↦ by
      simp only [ownedIds, List.mem_append, hloose] at hk ⊢
      rcases hk with hk | hk | hk | hk
      · exact .inl hk
      · exact .inr (.inl hk)
      · exact .inr (.inr (.inl (.inl hk)))
      · obtain ⟨h, hh, hkh⟩ := List.mem_flatMap.mp hk
        have hh' := ((perm_cons_eraseIdx hi).filterMap List.head?).mem_iff.mp hh
        simp only [List.filterMap_cons, List.head?_cons, List.mem_cons] at hh'
        rcases hh' with rfl | hh'
        · exact .inr (.inr (.inl (.inr hkh)))
        · exact .inr (.inr (.inr (List.mem_flatMap.mpr ⟨h, hh', hkh⟩)))
    present := hs.present
    enriching := hs.enriching
    handed_ready := hs.handed_ready }

def face (x : Slot) : GroupId × Bool × Option KVBatchMeta × ℕ :=
  (x.groupId, x.ready, x.kvMeta, x.startWeight)

theorem promote (hs : Agrees s) (t : ℕ) :
    Agrees { s with plane.buffer := (s.plane.buffer.promoteReadyGroup t).1 } := by
  cases hlent : (s.plane.buffer.promoteReadyGroup t).2 with
  | none =>
    rw [(TQReplayBuffer.promoteReadyGroup_eq_none hlent).1]
    exact hs
  | some lent =>
    obtain ⟨i, x, hx, _, _, hslots⟩ := TQReplayBuffer.promoteReadyGroup_eq_some hlent
    have hface : (s.plane.buffer.promoteReadyGroup t).1.slots.map face =
        s.plane.buffer.slots.map face := by
      rw [hslots]
      exact map_set_of_eq face hx (x.restamped t) rfl
    have hholders : (holders { s with
        plane.buffer := (s.plane.buffer.promoteReadyGroup t).1 }).map face =
        (holders s).map face := by
      simp only [holders, List.map_append, hface]
    have hmem : ∀ y ∈ holders { s with
        plane.buffer := (s.plane.buffer.promoteReadyGroup t).1 },
        ∃ z ∈ holders s, face z = face y := fun y hy ↦
      List.mem_map.mp (hholders ▸ List.mem_map_of_mem hy)
    have hnames : (holders { s with
        plane.buffer := (s.plane.buffer.promoteReadyGroup t).1 }).map Slot.groupId =
        (holders s).map Slot.groupId := by
      have h := congrArg (List.map Prod.fst) hholders
      rwa [List.map_map, List.map_map] at h
    have hids : (holders { s with
        plane.buffer := (s.plane.buffer.promoteReadyGroup t).1 }).flatMap Slot.rowIds =
        (holders s).flatMap Slot.rowIds := by
      have h := congrArg (List.flatMap fun z ↦ (z.2.2.1.map KVBatchMeta.sampleIds).getD [])
        hholders
      rwa [List.flatMap_map, List.flatMap_map] at h
    simp only [face, Prod.mk.injEq] at hmem
    exact {
      nodup := by
        unfold names
        rw [hnames]
        exact hs.nodup
      commits_nodup := hs.commits_nodup
      ready_iff := fun y hy ↦ by
        obtain ⟨z, hz, _, h₂, h₃, _⟩ := hmem y hy
        rw [← h₂, ← h₃]
        exact hs.ready_iff z hz
      describes := fun y hy ↦ by
        obtain ⟨z, hz, h₁, _, h₃, h₄⟩ := hmem y hy
        rw [← h₁, ← h₃, ← h₄]
        exact hs.describes z hz
      committing := fun c hc ↦ by
        refine ⟨(hs.committing c hc).1, fun y hy hyc ↦ ?_⟩
        obtain ⟨z, hz, h₁, h₂, _, h₄⟩ := hmem y hy
        rw [← h₂, ← h₄]
        exact (hs.committing c hc).2 z hz (h₁.trans hyc)
      restoring := hs.restoring
      loose_free := fun k hk ↦ by
        unfold names
        rw [hnames]
        exact hs.loose_free k hk
      owned := by
        unfold ownedIds
        rw [hids]
        exact hs.owned
      present := by
        rw [hids]
        exact hs.present
      enriching := hs.enriching
      handed_ready := hs.handed_ready }

theorem finish (hs : Agrees s) {i : ℕ} {c : Commit ρ} (hi : s.commits[i]? = some c)
    {m : KVBatchMeta} (hm : c.Describes m) (hp : s.plane.dp.Present c.sampleIds) :
    Agrees (afterCommit s i (Commit.finish s.plane c m)) := by
  unfold Commit.finish
  cases hidx : s.plane.buffer.index c.groupId with
  | none => exact hs.setStage hi fun h ↦ by simp at h
  | some j =>
    obtain ⟨x, hx, hg⟩ := TQReplayBuffer.index_eq_some hidx
    exact hs.fill hi hx hg hm (TQReplayBuffer.slots_fill hx m _) hp

theorem resumeCommit (hs : Agrees s) {i : ℕ} {c : Commit ρ} {reply : Reply}
    (hi : s.commits[i]? = some c) (ho : Allowed s (.resumeCommit i reply)) :
    Agrees (afterCommit s i (Commit.resume cfg s.plane c reply)) := by
  have hc : c ∈ s.commits := List.mem_of_getElem? hi
  unfold Commit.resume
  cases hstage : c.stage with
  | put =>
    cases reply with
    | raise e => exact hs.setStage hi fun h ↦ by simp at h
    | ok =>
      have hrows : c.rows.map Prod.fst = c.sampleIds :=
        PromptGroupRecord.map_fst_rows c.record c.groupId c.startWeightVersion
      have hput := hs.put c.rows fun k hk ↦ by
        refine List.mem_append_right _ (List.mem_append_left _ ?_)
        exact List.mem_flatMap.mpr ⟨c, hc, hrows ▸ hk⟩
      have hpresent : (s.plane.dp.put c.rows).Present c.sampleIds := by
        rw [← hrows]
        exact KeyedStore.present_put _ _
      cases cfg.enricherField with
      | some f => exact hput.setStage hi fun _ ↦ hpresent
      | none => exact hput.finish hi (c.describes_kvMeta cfg) hpresent
  | enrich =>
    cases reply with
    | raise e => exact hs.setStage hi fun h ↦ by simp at h
    | ok =>
      exact hs.finish hi (Commit.describes_withFields (c.describes_kvMeta cfg) _)
        (hs.enriching c hc hstage)
  | clear err =>
    cases reply with
    | ok => exact hs.rollback hi
    | raise e =>
      obtain ⟨g, record, v, w, stage⟩ := c
      simp only at hstage
      subst hstage
      simp [Allowed, hi] at ho

theorem step {t : State ρ} {e : Event ρ} (hs : Agrees s) (ho : Allowed s e)
    (h : BufferPlane.step cfg s e = some t) : Agrees t := by
  cases e with
  | reserve g w target =>
    obtain rfl := Option.some.inj h
    exact hs.reserve ho w target
  | commit g record v w =>
    simp only [BufferPlane.step] at h
    cases hstart : Commit.start cfg s.plane g record v w with
    | suspended c =>
      obtain ⟨rfl, hg, _⟩ := Commit.start_eq_suspended hstart
      obtain ⟨hc, hslot⟩ := ho hg
      rw [hstart] at h
      obtain rfl := Option.some.inj h
      exact hs.commit hg hc rfl hslot
    | returned m => exact absurd hstart Commit.start_ne_returned
    | raised err =>
      rw [hstart] at h
      obtain rfl := Option.some.inj h
      exact hs
  | writeRow i j =>
    simp only [BufferPlane.step, Option.bind_eq_bind, Option.bind_eq_some_iff] at h
    obtain ⟨c, hc, r, hr, h⟩ := h
    cases hstage : c.stage with
    | enrich => simp [hstage] at h
    | clear err => simp [hstage] at h
    | put =>
      simp only [hstage, Option.some.injEq] at h
      subst h
      refine hs.put [r] fun k hk ↦ ?_
      obtain rfl : k = r.1 := by simpa using hk
      have hmem : r.1 ∈ c.sampleIds := by
        have hrows : c.rows.map Prod.fst = c.sampleIds :=
          PromptGroupRecord.map_fst_rows c.record c.groupId c.startWeightVersion
        exact hrows ▸ List.mem_map_of_mem (List.mem_of_getElem? hr)
      exact List.mem_append_right _ (List.mem_append_left _
        (List.mem_flatMap.mpr ⟨c, List.mem_of_getElem? hc, hmem⟩))
  | resumeCommit i reply =>
    simp only [BufferPlane.step, Option.bind_eq_bind, Option.bind_eq_some_iff] at h
    obtain ⟨c, hc, h⟩ := h
    obtain rfl := Option.some.inj h
    exact hs.resumeCommit hc ho
  | remove idxs removeInDp =>
    obtain rfl := Option.some.inj h
    exact hs.remove ho removeInDp
  | removeGroup g removeInDp =>
    simp only [BufferPlane.step] at h
    cases hidx : s.plane.buffer.index g with
    | none =>
      rw [hidx] at h
      obtain rfl := Option.some.inj h
      exact hs
    | some i =>
      rw [hidx] at h
      obtain rfl := Option.some.inj h
      exact hs.remove (List.nodup_singleton i) removeInDp
  | evicted i reply =>
    simp only [BufferPlane.step, Option.bind_eq_bind, Option.bind_eq_some_iff] at h
    obtain ⟨ids, hi, h⟩ := h
    cases reply with
    | ok =>
      obtain rfl := Option.some.inj h
      exact hs.evicted hi
    | raise err =>
      obtain rfl := Option.some.inj h
      exact hs.abandon hi
  | trainerClear i reply =>
    simp only [BufferPlane.step, Option.bind_eq_bind, Option.bind_eq_some_iff] at h
    obtain ⟨x, hi, h⟩ := h
    cases reply with
    | ok =>
      obtain rfl := Option.some.inj h
      exact hs.trainerClear hi
    | raise err =>
      obtain rfl := Option.some.inj h
      exact hs
  | promote target =>
    obtain rfl := Option.some.inj h
    exact hs.promote target
  | stateDict =>
    obtain rfl := Option.some.inj h
    exact { hs with }
  | fetched i reply =>
    simp only [BufferPlane.step] at h
    split at h
    · split at h <;>
      · obtain rfl := Option.some.inj h
        exact { hs with }
    · obtain rfl := Option.some.inj h
      exact { hs with }
    · simp at h
  | load env maxGroups partitionId groupSize =>
    simp only [BufferPlane.step] at h
    cases hp : TQReplayBuffer.preflight env maxGroups partitionId groupSize with
    | error err =>
      rw [hp] at h
      obtain rfl := Option.some.inj h
      exact hs
    | ok gs =>
      simp only [Allowed, hp] at ho
      cases gs with
      | nil =>
        rw [hp] at h
        obtain rfl := Option.some.inj h
        exact hs
      | cons g gs =>
        rw [hp] at h
        obtain rfl := Option.some.inj h
        exact hs.load ho.1 ho.2
  | restoreRow i j =>
    simp only [BufferPlane.step, Option.bind_eq_bind, Option.bind_eq_some_iff] at h
    obtain ⟨queue, hq, g, hg, r, hr, h⟩ := h
    obtain rfl := Option.some.inj h
    have hhead : g ∈ heads s :=
      List.mem_filterMap.mpr ⟨queue, List.mem_of_getElem? hq, hg⟩
    have hgm : g ∈ s.restores.flatten :=
      List.mem_flatten.mpr ⟨queue, List.mem_of_getElem? hq, List.mem_of_mem_head? hg⟩
    refine hs.put [r] fun k hk ↦ ?_
    obtain rfl : k = r.1 := by simpa using hk
    have hmem : r.1 ∈ g.kvMeta.sampleIds :=
      map_fst_rows (hs.restoring g hgm) ▸ List.mem_map_of_mem (List.mem_of_getElem? hr)
    exact List.mem_append_right _ (List.mem_append_right _ (List.mem_append_right _
      (List.mem_flatMap.mpr ⟨g, hhead, hmem⟩)))
  | restored i reply =>
    simp only [BufferPlane.step] at h
    split at h
    next g rest hi =>
      obtain rfl := Option.some.inj h
      exact hs.restored hi rfl
    next g rest err hi =>
      obtain rfl := Option.some.inj h
      exact hs.abandonRestore hi
    next => simp at h

end Agrees

/-- The states of the runs whose callers keep to what they are allowed. -/
abbrev Reaches (s : State ρ) : Prop := ReachableBy (step cfg) Initial Allowed s

theorem Reaches.agrees {cfg : BufferConfig} {s : State ρ} (h : Reaches cfg s) : Agrees s :=
  h.invariant (fun _ hs ↦ hs ▸ Agrees.init) fun _ _ _ hs ho hstep ↦ hs.step ho hstep

/-- A row that is written belongs to a ready slot, to a commit in progress, to
a group handed out by `select`, to a group whose removal is still clearing it,
to the group a restore is putting, or its clear or restore has raised. -/
def RowsOwned (s : State ρ) : Prop :=
  ∀ k, s.plane.dp.Holds k →
    (∃ x ∈ s.plane.buffer.slots, x.ready = true ∧ k ∈ x.rowIds) ∨
    (∃ c ∈ s.commits, k ∈ c.sampleIds) ∨ (∃ x ∈ s.handedOut, k ∈ x.rowIds) ∨
    (∃ ids ∈ s.evictions, k ∈ ids) ∨ (∃ g ∈ heads s, k ∈ g.kvMeta.sampleIds) ∨
    k ∈ s.abandoned

/-- The rows of a ready slot, of a handed-out group and of a commit that waits
for its enricher are written. -/
def RowsPresent (s : State ρ) : Prop :=
  (∀ x ∈ s.plane.buffer.slots, x.ready = true → s.plane.dp.Present x.rowIds) ∧
  (∀ x ∈ s.handedOut, s.plane.dp.Present x.rowIds) ∧
  ∀ c ∈ s.commits, c.stage = .enrich → s.plane.dp.Present c.sampleIds

/-- The six lists have one length, no two indices share a group, and the meta
at an index is set exactly when the slot is ready and is then of its group. -/
def ListsAligned (b : TQReplayBuffer) : Prop :=
  (b.startWeightList.length = b.metaList.length ∧ b.endWeightList.length = b.metaList.length ∧
    b.targetStepList.length = b.metaList.length ∧ b.readyList.length = b.metaList.length ∧
    b.groupIds.length = b.metaList.length) ∧
  b.groupIds.Nodup ∧
  ∀ x ∈ b.slots, (x.ready = true ↔ x.kvMeta.isSome) ∧
    ∀ m ∈ x.kvMeta, DescribesGroup m x.startWeight x.groupId

/-- A commit that raises leaves no row and no ready slot of its group. -/
def RaisingCommitCleans (s : State ρ) : Prop :=
  ∀ i c err t, s.commits[i]? = some c → c.stage = .clear err →
    step cfg s (.resumeCommit i .ok) = some t →
    (∀ k, k.group = c.groupId → ¬ t.plane.dp.Holds k) ∧
    ∀ x ∈ t.plane.buffer.slots, x.groupId = c.groupId → x.ready = false

def CommitKeepsToItsSlot (s : State ρ) : Prop :=
  ∀ (i : ℕ) (c : Commit ρ) (reply : Reply) (t : State ρ), s.commits[i]? = some c →
    step cfg s (.resumeCommit i reply) = some t → ∀ j : ℕ, t.plane.buffer.slots[j]? = s.plane.buffer.slots[j]? ∨
      ∃ x, s.plane.buffer.slots[j]? = some x ∧ x.groupId = c.groupId

namespace Agrees

variable {cfg} {s : State ρ}

theorem rowsOwned (hs : Agrees s) : RowsOwned s := by
  intro k hk
  have h := hs.owned k hk
  simp only [ownedIds, holders, loose, List.flatMap_append, List.mem_append, List.mem_flatMap,
    List.mem_flatten] at h
  rcases h with (⟨x, hx, hkx⟩ | h) | h | (h | h) | h
  · refine .inl ⟨x, hx, ?_, hkx⟩
    by_contra hr
    rw [hs.rowIds_unready (List.mem_append_left _ hx) (by simpa using hr)] at hkx
    simp at hkx
  · exact .inr (.inr (.inl h))
  · exact .inr (.inl h)
  · exact .inr (.inr (.inr (.inl h)))
  · exact .inr (.inr (.inr (.inr (.inr h))))
  · exact .inr (.inr (.inr (.inr (.inl h))))

theorem rowsPresent (hs : Agrees s) : RowsPresent s := by
  refine ⟨fun x hx _ k hk ↦ hs.present k ?_, fun x hx k hk ↦ hs.present k ?_, hs.enriching⟩
  · exact List.mem_flatMap.mpr ⟨x, List.mem_append_left _ hx, hk⟩
  · exact List.mem_flatMap.mpr ⟨x, List.mem_append_right _ hx, hk⟩

theorem listsAligned (hs : Agrees s) : ListsAligned s.plane.buffer := by
  let b := s.plane.buffer
  refine ⟨⟨b.length_startWeightList, b.length_endWeightList, b.length_targetStepList,
    b.length_readyList, b.length_groupIds⟩, ?_, fun x hx ↦ ?_⟩
  · have h := hs.nodup.of_append_left
    rw [holders, List.map_append, TQReplayBuffer.map_groupId_slots] at h
    exact h.of_append_left
  · have hx' : x ∈ holders s := List.mem_append_left _ hx
    exact ⟨hs.ready_iff x hx', hs.describes x hx'⟩

theorem raisingCommitCleans (hs : Agrees s) : RaisingCommitCleans cfg s := by
  intro i c err t hi hstage h
  have hc : c ∈ s.commits := List.mem_of_getElem? hi
  obtain ⟨hcr, hslot⟩ := hs.committing c hc
  have ht : t = { s with
      plane.dp := s.plane.dp.clear c.sampleIds
      commits := s.commits.eraseIdx i } := by
    simpa [BufferPlane.step, hi, Commit.resume, hstage, afterCommit] using h.symm
  subst ht
  refine ⟨fun k hk hheld ↦ ?_, fun x hx hxc ↦ (hslot x (List.mem_append_left _ hx) hxc).1⟩
  have hagrees := hs.rollback hi
  have hcommits := (perm_cons_eraseIdx hi).map Commit.groupId
  have hother := (List.nodup_cons.mp (hcommits.nodup_iff.mp hs.commits_nodup)).1
  have h := hagrees.owned k hheld
  simp only [ownedIds, holders, List.flatMap_append, List.mem_append, List.mem_flatMap] at h
  have hholder : ∀ x ∈ holders s, k ∉ x.rowIds := fun x hx hkx ↦ by
    have hxc := (hs.group_of_mem_rowIds hx hkx).symm.trans hk
    rw [hs.rowIds_unready hx (hslot x hx hxc).1] at hkx
    simp at hkx
  rcases h with (⟨x, hx, hkx⟩ | ⟨x, hx, hkx⟩) | ⟨d, hd, hkd⟩ | h | ⟨g, hg, hkg⟩
  · exact hholder x (List.mem_append_left _ hx) hkx
  · exact hholder x (List.mem_append_right _ hx) hkx
  · refine hother (List.mem_map.mpr ⟨d, hd, ?_⟩)
    exact (PromptGroupRecord.mem_sampleIds.mp hkd).1.symm.trans hk
  · exact (hs.loose_free k h).2 (List.mem_map.mpr ⟨c, hc, hk.symm⟩)
  · obtain ⟨q, hq, hqg⟩ := List.mem_filterMap.mp hg
    have hgm : g ∈ s.restores.flatten := List.mem_flatten.mpr ⟨q, hq, List.mem_of_mem_head? hqg⟩
    refine hcr (List.mem_map.mpr ⟨g, hgm, ?_⟩)
    exact ((hs.restoring g hgm).1.1 k hkg).symm.trans hk

end Agrees

theorem plane_afterCommit (s : State ρ) (i : ℕ) (r : Plane ρ × Progress (Commit ρ) KVBatchMeta) :
    (afterCommit s i r).plane = r.1 := by
  obtain ⟨p, r⟩ := r
  cases r <;> rfl

theorem commitKeepsToItsSlot (s : State ρ) : CommitKeepsToItsSlot cfg s := by
  intro i c reply t hi h j
  have ht : t = afterCommit s i (Commit.resume cfg s.plane c reply) := by
    simpa [step, hi] using h.symm
  rw [ht, plane_afterCommit]
  rcases hr : Commit.resume cfg s.plane c reply with ⟨q, r⟩
  have heffect := Commit.resume_effect cfg s.plane c reply
  rw [hr] at heffect
  cases heffect with
  | filled k x hx hg _ hq =>
    by_cases hjk : k = j
    · exact .inr ⟨x, hjk ▸ hx, hg⟩
    · exact .inl (by simp only [hq, List.getElem?_set_ne hjk])
  | suspended stage hq => exact .inl (by simp only [hq])
  | raised err hq => exact .inl (by simp only [hq])

/-- At every suspension point the lists are aligned and the rows of the
DataPlane are those their owners answer for. -/
theorem buffer_agrees_with_dataPlane {s : State ρ} (h : Reaches cfg s) :
    ListsAligned s.plane.buffer ∧ RowsOwned s ∧ RowsPresent s ∧
      RaisingCommitCleans cfg s ∧ CommitKeepsToItsSlot cfg s :=
  ⟨h.agrees.listsAligned, h.agrees.rowsOwned, h.agrees.rowsPresent,
    h.agrees.raisingCommitCleans, commitKeepsToItsSlot cfg s⟩

def nativeConfig : BufferConfig := ⟨"rollout_data", false, none⟩

/-- A group is reserved and committed, and then removed with its rows; the
removal waits for `clear_samples`. -/
def evictingRun : List (Event ℕ) :=
  [.reserve ⟨0, 0⟩ 0 none, .commit ⟨0, 0⟩ ⟨[⟨7, 3, false⟩]⟩ 0 0, .resumeCommit 0 .ok,
    .remove [0] true]

theorem evictingRun_ends :
    (execBy (step nativeConfig) Allowed (init : State ℕ) evictingRun).isSome := by decide

theorem evictingRun_reaches : Reaches nativeConfig
    ((execBy (step nativeConfig) Allowed init evictingRun).get evictingRun_ends) :=
  ReachableBy.run initial_init evictingRun evictingRun_ends

theorem buffer_agrees_with_dataPlane_evicting :
    RowsOwned ((execBy (step nativeConfig) Allowed init evictingRun).get evictingRun_ends) :=
  (buffer_agrees_with_dataPlane nativeConfig evictingRun_reaches).2.1

/-- Rows outlive the slot of a removed group until its clear has returned. -/
theorem evicted_row_outlives_slot : ¬ ∀ s : State ℕ, Reaches nativeConfig s →
    ∀ k, s.plane.dp.Holds k → (∃ x ∈ s.plane.buffer.slots, x.ready = true ∧ k ∈ x.rowIds) ∨
      (∃ c ∈ s.commits, k ∈ c.sampleIds) ∨ ∃ x ∈ s.handedOut, k ∈ x.rowIds := by
  intro h
  have hk := h _ evictingRun_reaches ⟨⟨0, 0⟩, 0⟩ (by decide)
  revert hk
  decide

end NemoRL.AsyncUtils.BufferAgreement
