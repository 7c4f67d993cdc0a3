import Mathlib
import NemoRL.AsyncUtils.BufferAgreement
import NemoRL.AsyncUtils.BufferLoad

namespace NemoRL.AsyncUtils.BufferRoundTrip

open DataPlane Experience Foundations Foundations.Positions Foundations.Transition
open BufferPlane BufferAgreement

variable {ρ : Type} {cfg : BufferConfig} {s t : State ρ}

/-- Every group some party of the process answers for, with the weight version
it was reserved at. -/
def weights (s : State ρ) : List (GroupId × ℕ) :=
  (holders s).map (fun x ↦ (x.groupId, x.startWeight)) ++
    (s.commits.map (fun c ↦ (c.groupId, c.startWeightVersion)) ++
      s.restores.flatten.map fun g ↦ (g.groupId, g.startWeight))

theorem mem_weights {p : GroupId × ℕ} : p ∈ weights s ↔
    (∃ x ∈ holders s, (x.groupId, x.startWeight) = p) ∨
    (∃ c ∈ s.commits, (c.groupId, c.startWeightVersion) = p) ∨
    ∃ g ∈ s.restores.flatten, (g.groupId, g.startWeight) = p := by
  simp only [weights, List.mem_append, List.mem_map]

theorem weights_unique (hs : Agrees s) {p q : GroupId × ℕ} (hp : p ∈ weights s)
    (hq : q ∈ weights s) (h : p.1 = q.1) : p.2 = q.2 := by
  have hnd := List.nodup_append.mp hs.nodup
  have hholders := List.inj_on_of_nodup_map hnd.1
  have hrestores := List.inj_on_of_nodup_map hnd.2.1
  have hcommits := List.inj_on_of_nodup_map hs.commits_nodup
  have hmix : ∀ x ∈ holders s, ∀ g ∈ s.restores.flatten, x.groupId ≠ g.groupId :=
    fun x hx g hg ↦ hnd.2.2 _ (List.mem_map_of_mem hx) _ (List.mem_map_of_mem hg)
  rcases mem_weights.mp hp with ⟨x, hx, rfl⟩ | ⟨c, hc, rfl⟩ | ⟨g, hg, rfl⟩ <;>
    rcases mem_weights.mp hq with ⟨y, hy, rfl⟩ | ⟨d, hd, rfl⟩ | ⟨g', hg', rfl⟩ <;>
    simp only at h ⊢
  · rw [hholders hx hy h]
  · exact ((hs.committing d hd).2 x hx h).2
  · exact absurd h (hmix x hx g' hg')
  · exact (((hs.committing c hc).2 y hy h.symm).2).symm
  · rw [hcommits hc hd h]
  · exact absurd (h ▸ List.mem_map_of_mem hg') (hs.committing c hc).1
  · exact absurd h.symm (hmix y hy g hg)
  · exact absurd (h ▸ List.mem_map_of_mem hg) (hs.committing d hd).1
  · rw [hrestores hg hg' h]

def Shaped (m : KVBatchMeta) : Prop :=
  m.sampleIds.Nodup ∧ ∃ ls, m.sequenceLengths = some ls ∧ ls.length = m.sampleIds.length

/-- What a restore of a state dict rests on: rows carry the tag of their group,
and metas have the shape the preflight asks for. -/
structure Restorable (s : State ρ) : Prop where
  tags : ∀ k row, s.plane.dp k = some row → ∀ p ∈ weights s, p.1 = k.group → row.tag = ⟨p.2⟩
  shaped : ∀ x ∈ holders s, ∀ m ∈ x.kvMeta, Shaped m
  restoring : ∀ g ∈ s.restores.flatten, Shaped g.kvMeta

theorem noRow_of_fresh (hs : Agrees s) {g : GroupId} (hg : Fresh s g) {k : SampleId}
    (hk : k.group = g) : s.plane.dp k = none := by
  obtain ⟨hn, hc, hl⟩ := hg
  by_contra hrow
  have hown := hs.owned k (Option.isSome_iff_ne_none.mpr hrow)
  simp only [ownedIds, List.mem_append, List.mem_flatMap] at hown
  rcases hown with ⟨x, hx, hkx⟩ | ⟨c, hcm, hkc⟩ | hloose | ⟨g', hg', hkg⟩
  · refine hn (List.mem_append_left _ (List.mem_map.mpr ⟨x, hx, ?_⟩))
    rw [← hs.group_of_mem_rowIds hx hkx, hk]
  · refine hc (List.mem_map.mpr ⟨c, hcm, ?_⟩)
    rw [← (PromptGroupRecord.mem_sampleIds.mp hkc).1, hk]
  · exact hl (List.mem_map.mpr ⟨k, hloose, hk⟩)
  · obtain ⟨q, hq, hqg⟩ := List.mem_filterMap.mp hg'
    have hmem : g' ∈ s.restores.flatten :=
      List.mem_flatten.mpr ⟨q, hq, List.mem_of_mem_head? hqg⟩
    refine hn (List.mem_append_right _ (List.mem_map.mpr ⟨g', hmem, ?_⟩))
    rw [← (hs.restoring g' hmem).1.1 k hkg, hk]

theorem weights_mono (hx : ∀ x ∈ holders t, x ∈ holders s) (hc : ∀ c ∈ t.commits, c ∈ s.commits)
    (hg : ∀ g ∈ t.restores.flatten, g ∈ s.restores.flatten) :
    ∀ p ∈ weights t, p ∈ weights s := by
  intro p hp
  refine mem_weights.mpr ?_
  rcases mem_weights.mp hp with ⟨x, h, rfl⟩ | ⟨c, h, rfl⟩ | ⟨g, h, rfl⟩
  · exact .inl ⟨x, hx x h, rfl⟩
  · exact .inr (.inl ⟨c, hc c h, rfl⟩)
  · exact .inr (.inr ⟨g, hg g h, rfl⟩)

namespace Restorable

theorem join (hr : Restorable s)
    (hw : ∀ p ∈ weights t, p ∈ weights s ∨ ∀ k : SampleId, k.group = p.1 → s.plane.dp k = none)
    (hd : t.plane.dp = s.plane.dp) (hx : ∀ x ∈ holders t, ∀ m ∈ x.kvMeta, Shaped m)
    (hg : ∀ g ∈ t.restores.flatten, Shaped g.kvMeta) : Restorable t where
  tags := by
    intro k row hrow p hp hpk
    rw [hd] at hrow
    rcases hw p hp with hp | hnone
    · exact hr.tags k row hrow p hp hpk
    · rw [hnone k hpk.symm] at hrow
      cases hrow
  shaped := hx
  restoring := hg

/-- Parties stay or leave, and a new row carries the tag of a party of its group. -/
theorem write (hr : Restorable s) (hs : Agrees s) (hw : ∀ p ∈ weights t, p ∈ weights s)
    (hd : ∀ k row, t.plane.dp k = some row → s.plane.dp k = some row ∨
      ∃ p ∈ weights s, p.1 = k.group ∧ row.tag = ⟨p.2⟩)
    (hx : ∀ x ∈ holders t, ∀ m ∈ x.kvMeta, Shaped m)
    (hg : ∀ g ∈ t.restores.flatten, Shaped g.kvMeta) : Restorable t where
  tags := by
    intro k row hrow p hp hpk
    rcases hd k row hrow with hold | ⟨q, hq, hqk, htag⟩
    · exact hr.tags k row hold p (hw p hp) hpk
    · rw [htag, weights_unique hs (hw p hp) hq (hpk.trans hqk.symm)]
  shaped := hx
  restoring := hg

theorem shrink (hr : Restorable s) (hx : ∀ x ∈ holders t, x ∈ holders s)
    (hc : ∀ c ∈ t.commits, c ∈ s.commits)
    (hg : ∀ g ∈ t.restores.flatten, g ∈ s.restores.flatten)
    (hd : ∀ k row, t.plane.dp k = some row → s.plane.dp k = some row) : Restorable t where
  tags := fun k row hrow p hp ↦ hr.tags k row (hd k row hrow) p (weights_mono hx hc hg p hp)
  shaped := fun x h ↦ hr.shaped x (hx x h)
  restoring := fun g h ↦ hr.restoring g (hg g h)

end Restorable

theorem eq_of_clear {d : KeyedStore SampleId (Row ρ)} {keys : List SampleId} {k : SampleId}
    {row : Row ρ} (h : d.clear keys k = some row) : d k = some row := by
  unfold KeyedStore.clear at h
  split_ifs at h
  exact h

theorem eq_of_put {d : KeyedStore SampleId (Row ρ)} {rows : List (SampleId × Row ρ)}
    {k : SampleId} {row : Row ρ} (h : d.put rows k = some row) :
    d k = some row ∨ (k, row) ∈ rows := by
  induction rows generalizing d with
  | nil => exact .inl h
  | cons r rows ih =>
    rcases ih (d := d.write r.1 r.2) h with hw | hmem
    · unfold KeyedStore.write at hw
      split_ifs at hw with hk
      · obtain rfl := Option.some.inj hw
        exact .inr (by simp [hk])
      · exact .inl hw
    · exact .inr (List.mem_cons_of_mem _ hmem)

theorem mem_rows_commit {c : Commit ρ} {k : SampleId} {row : Row ρ} (h : (k, row) ∈ c.rows) :
    c.groupId = k.group ∧ row.tag = ⟨c.startWeightVersion⟩ := by
  obtain ⟨x, _, hx⟩ := List.mem_map.mp h
  obtain ⟨rfl, rfl⟩ := Prod.mk.inj hx
  exact ⟨rfl, rfl⟩

theorem mem_rows_saved {g : SavedGroup ρ} (hg : WellSaved g) {k : SampleId} {row : Row ρ}
    (h : (k, row) ∈ g.rows) : g.groupId = k.group ∧ row.tag = ⟨g.startWeight⟩ := by
  obtain ⟨⟨k', payload, tag⟩, hmem, hx⟩ := List.mem_map.mp h
  obtain ⟨rfl, rfl⟩ := Prod.mk.inj hx
  obtain ⟨hk, hrest⟩ := List.of_mem_zip hmem
  have htag := (List.of_mem_zip hrest).2
  rw [hg.1.2, Option.getD_some] at htag
  exact ⟨(hg.1.1 _ hk).symm, List.eq_of_mem_replicate htag⟩

theorem shaped_of_preflight {env : Envelope ρ} {maxGroups n : ℕ} {partition : String}
    {gs : List (SavedGroup ρ)} (h : TQReplayBuffer.preflight env maxGroups partition n = .ok gs)
    {g : SavedGroup ρ} (hg : g ∈ gs) : Shaped g.kvMeta := by
  obtain ⟨_, groups, _, hsized, htrunc⟩ := TQReplayBuffer.preflight_ok_iff.mp h
  have hmem := TQReplayBuffer.truncate_subset htrunc g hg
  obtain ⟨hids, _, hlens⟩ := hsized.sized g hmem
  obtain ⟨ls, hls, hlen⟩ := Option.map_eq_some_iff.mp hlens
  exact ⟨(List.nodup_flatMap.mp hsized.nodup).1 g hmem, ls, hls, hlen.trans hids.symm⟩

namespace Restorable

theorem reserve (hr : Restorable s) (hs : Agrees s) {g : GroupId} (hg : Fresh s g) (w : ℕ)
    (target : Option ℕ) :
    Restorable { s with plane.buffer := s.plane.buffer.reserve w target g } := by
  have hmem : ∀ x ∈ holders { s with plane.buffer := s.plane.buffer.reserve w target g },
      x = TQReplayBuffer.reservation w target g ∨ x ∈ holders s := by
    intro x hx
    simp only [holders, TQReplayBuffer.slots_reserve, List.mem_append, List.mem_singleton] at hx ⊢
    tauto
  refine hr.join (fun p hp ↦ ?_) rfl (fun x hx m hm ↦ ?_) hr.restoring
  · rcases mem_weights.mp hp with ⟨x, hx, rfl⟩ | h | h
    · rcases hmem x hx with rfl | hx
      · exact .inr fun k hk ↦ noRow_of_fresh hs hg hk
      · exact .inl (mem_weights.mpr (.inl ⟨x, hx, rfl⟩))
    · exact .inl (mem_weights.mpr (.inr (.inl h)))
    · exact .inl (mem_weights.mpr (.inr (.inr h)))
  · rcases hmem x hx with rfl | hx
    · simp [TQReplayBuffer.reservation] at hm
    · exact hr.shaped x hx m hm

theorem commit (hr : Restorable s) {c : Commit ρ} (hg : c.groupId ∈ s.plane.buffer.groupIds)
    (hslot : ∀ x ∈ s.plane.buffer.slots, x.groupId = c.groupId →
      x.ready = false ∧ x.startWeight = c.startWeightVersion) :
    Restorable { s with commits := s.commits ++ [c] } := by
  refine hr.join (fun p hp ↦ .inl ?_) rfl hr.shaped hr.restoring
  rcases mem_weights.mp hp with h | ⟨d, hd, rfl⟩ | h
  · exact mem_weights.mpr (.inl h)
  · rcases List.mem_append.mp hd with hd | hd
    · exact mem_weights.mpr (.inr (.inl ⟨d, hd, rfl⟩))
    · obtain rfl := List.mem_singleton.mp hd
      rw [← TQReplayBuffer.map_groupId_slots] at hg
      obtain ⟨x, hx, hxg⟩ := List.mem_map.mp hg
      refine mem_weights.mpr (.inl ⟨x, List.mem_append_left _ hx, ?_⟩)
      rw [hxg, (hslot x hx hxg).2]
  · exact mem_weights.mpr (.inr (.inr h))

theorem remove (hr : Restorable s) {idxs : List ℕ} (hnd : idxs.Nodup) (removeInDp : Bool) :
    Restorable (remove s idxs removeInDp) := by
  unfold BufferPlane.remove
  cases hrem : s.plane.buffer.remove idxs with
  | mk b r =>
  cases r with
  | none =>
    have hb := TQReplayBuffer.remove_eq_none hnd (congrArg Prod.snd hrem)
    rw [hrem] at hb
    simp only at hb ⊢
    rw [hb]
    exact hr
  | some ids =>
    obtain ⟨hp, _⟩ := Agrees.remove_dropped hnd hrem
    have hleft : ∀ x ∈ b.slots, x ∈ s.plane.buffer.slots := fun x hx ↦
      hp.mem_iff.mpr (List.mem_append_right _ hx)
    simp only
    split_ifs
    · exact hr
    · refine hr.shrink (fun x hx ↦ ?_) (fun _ h ↦ h) (fun _ h ↦ h) fun _ _ h ↦ h
      rcases List.mem_append.mp hx with hx | hx
      · exact List.mem_append_left _ (hleft x hx)
      · exact List.mem_append_right _ hx
    · refine hr.shrink (fun x hx ↦ ?_) (fun _ h ↦ h) (fun _ h ↦ h) fun _ _ h ↦ h
      rcases List.mem_append.mp hx with hx | hx
      · exact List.mem_append_left _ (hleft x hx)
      · rcases List.mem_append.mp hx with hx | hx
        · exact List.mem_append_right _ hx
        · exact List.mem_append_left _ (hp.mem_iff.mpr
            (List.mem_append_left _ (List.mem_filter.mp hx).1))

theorem promote (hr : Restorable s) (hs : Agrees s) (target : ℕ) :
    Restorable { s with plane.buffer := (s.plane.buffer.promoteReadyGroup target).1 } := by
  cases hlent : (s.plane.buffer.promoteReadyGroup target).2 with
  | none =>
    rw [(TQReplayBuffer.promoteReadyGroup_eq_none hlent).1]
    exact hr
  | some lent =>
    obtain ⟨i, x, hx, _, _, hslots⟩ := TQReplayBuffer.promoteReadyGroup_eq_some hlent
    have hmem : ∀ y ∈ holders { s with
        plane.buffer := (s.plane.buffer.promoteReadyGroup target).1 },
        ∃ z ∈ holders s, z.groupId = y.groupId ∧ z.startWeight = y.startWeight ∧
          z.kvMeta = y.kvMeta := by
      intro y hy
      rcases List.mem_append.mp hy with hy | hy
      · rw [hslots] at hy
        rcases List.mem_or_eq_of_mem_set hy with hy | rfl
        · exact ⟨y, List.mem_append_left _ hy, rfl, rfl, rfl⟩
        · exact ⟨x, List.mem_append_left _ (List.mem_of_getElem? hx), rfl, rfl, rfl⟩
      · exact ⟨y, List.mem_append_right _ hy, rfl, rfl, rfl⟩
    refine hr.write hs (fun p hp ↦ ?_) (fun k row h ↦ .inl h) (fun y hy m hm ↦ ?_) hr.restoring
    · rcases mem_weights.mp hp with ⟨y, hy, rfl⟩ | h | h
      · obtain ⟨z, hz, hzg, hzw, _⟩ := hmem y hy
        exact mem_weights.mpr (.inl ⟨z, hz, by rw [hzg, hzw]⟩)
      · exact mem_weights.mpr (.inr (.inl h))
      · exact mem_weights.mpr (.inr (.inr h))
    · obtain ⟨z, hz, _, _, hzm⟩ := hmem y hy
      exact hr.shaped z hz m (hzm ▸ hm)

theorem shaped_describes {c : Commit ρ} {m : KVBatchMeta} (h : c.Describes m) : Shaped m := by
  obtain ⟨hids, _, hlens⟩ := h
  refine ⟨?_, _, hlens, ?_⟩
  · rw [hids]
    exact List.nodup_range.map fun i j h ↦ congrArg SampleId.row h
  · rw [hids]
    simp [Commit.sampleIds, PromptGroupRecord.sampleIds]

theorem setCommit (hr : Restorable s) (hs : Agrees s) {i : ℕ} {c : Commit ρ}
    (hi : s.commits[i]? = some c) (stage : CommitStage) {dp : KeyedStore SampleId (Row ρ)}
    (hd : ∀ k row, dp k = some row → s.plane.dp k = some row ∨ (k, row) ∈ c.rows) :
    Restorable { s with
      plane.dp := dp, commits := s.commits.set i { c with stage := stage } } := by
  have hc : c ∈ s.commits := List.mem_of_getElem? hi
  refine hr.write hs (fun p hp ↦ ?_) (fun k row hrow ↦ ?_) hr.shaped hr.restoring
  · rcases mem_weights.mp hp with h | ⟨d, hd, rfl⟩ | h
    · exact mem_weights.mpr (.inl h)
    · rcases List.mem_or_eq_of_mem_set hd with hd | rfl
      · exact mem_weights.mpr (.inr (.inl ⟨d, hd, rfl⟩))
      · exact mem_weights.mpr (.inr (.inl ⟨c, hc, rfl⟩))
    · exact mem_weights.mpr (.inr (.inr h))
  · refine (hd k row hrow).imp_right fun hmem ↦ ?_
    exact ⟨_, mem_weights.mpr (.inr (.inl ⟨c, hc, rfl⟩)), mem_rows_commit hmem⟩

theorem fill (hr : Restorable s) (hs : Agrees s) {i j : ℕ} {c : Commit ρ} {x : Slot}
    {m : KVBatchMeta} {b : TQReplayBuffer} {dp : KeyedStore SampleId (Row ρ)}
    (hi : s.commits[i]? = some c) (hj : s.plane.buffer.slots[j]? = some x) (hm : c.Describes m)
    (hb : b.slots = s.plane.buffer.slots.set j (x.filled m c.endWeightVersion))
    (hd : ∀ k row, dp k = some row → s.plane.dp k = some row ∨ (k, row) ∈ c.rows) :
    Restorable { s with plane := ⟨b, dp⟩, commits := s.commits.eraseIdx i } := by
  have hc : c ∈ s.commits := List.mem_of_getElem? hi
  have hx : x ∈ holders s := List.mem_append_left _ (List.mem_of_getElem? hj)
  have hmem : ∀ y ∈ holders { s with plane := ⟨b, dp⟩, commits := s.commits.eraseIdx i },
      y = x.filled m c.endWeightVersion ∨ y ∈ holders s := by
    intro y hy
    rcases List.mem_append.mp hy with hy | hy
    · rw [hb] at hy
      exact (List.mem_or_eq_of_mem_set hy).symm.imp_right (List.mem_append_left _)
    · exact .inr (List.mem_append_right _ hy)
  refine hr.write hs (fun p hp ↦ ?_) (fun k row hrow ↦ ?_) (fun y hy n hn ↦ ?_) hr.restoring
  · rcases mem_weights.mp hp with ⟨y, hy, rfl⟩ | ⟨d, hd, rfl⟩ | h
    · rcases hmem y hy with rfl | hy
      · exact mem_weights.mpr (.inl ⟨x, hx, rfl⟩)
      · exact mem_weights.mpr (.inl ⟨y, hy, rfl⟩)
    · exact mem_weights.mpr (.inr (.inl ⟨d, List.mem_of_mem_eraseIdx hd, rfl⟩))
    · exact mem_weights.mpr (.inr (.inr h))
  · refine (hd k row hrow).imp_right fun hmem ↦ ?_
    exact ⟨_, mem_weights.mpr (.inr (.inl ⟨c, hc, rfl⟩)), mem_rows_commit hmem⟩
  · rcases hmem y hy with rfl | hy
    · obtain rfl : m = n := by simpa [Slot.filled] using hn
      exact shaped_describes hm
    · exact hr.shaped y hy n hn

theorem finish (hr : Restorable s) (hs : Agrees s) {i : ℕ} {c : Commit ρ}
    (hi : s.commits[i]? = some c) {m : KVBatchMeta} (hm : c.Describes m)
    {dp : KeyedStore SampleId (Row ρ)}
    (hd : ∀ k row, dp k = some row → s.plane.dp k = some row ∨ (k, row) ∈ c.rows) :
    Restorable (afterCommit s i (Commit.finish { s.plane with dp := dp } c m)) := by
  unfold Commit.finish
  cases hidx : s.plane.buffer.index c.groupId with
  | none =>
    simp only
    exact hr.setCommit hs hi _ hd
  | some j =>
    obtain ⟨x, hx, _⟩ := TQReplayBuffer.index_eq_some hidx
    simp only
    exact hr.fill hs hi hx hm (TQReplayBuffer.slots_fill hx m _) hd

theorem resumeCommit (hr : Restorable s) (hs : Agrees s) {i : ℕ} {c : Commit ρ} (reply : Reply)
    (hi : s.commits[i]? = some c) :
    Restorable (afterCommit s i (Commit.resume cfg s.plane c reply)) := by
  have hsame : ∀ k row, s.plane.dp k = some row → s.plane.dp k = some row ∨ (k, row) ∈ c.rows :=
    fun k row h ↦ .inl h
  have hleave : ∀ d ∈ s.commits.eraseIdx i, d ∈ s.commits := fun d h ↦ List.mem_of_mem_eraseIdx h
  unfold Commit.resume
  cases c.stage with
  | put =>
    cases reply with
    | raise e => exact hr.setCommit hs hi _ hsame
    | ok =>
      cases cfg.enricherField with
      | some f => exact hr.setCommit hs hi _ fun k row h ↦ eq_of_put h
      | none => exact hr.finish hs hi (c.describes_kvMeta cfg) fun k row h ↦ eq_of_put h
  | enrich =>
    cases reply with
    | raise e => exact hr.setCommit hs hi _ hsame
    | ok => exact hr.finish hs hi (Commit.describes_withFields (c.describes_kvMeta cfg) _) hsame
  | clear err =>
    cases reply with
    | ok => exact hr.shrink (fun _ h ↦ h) hleave (fun _ h ↦ h) fun k row h ↦ eq_of_clear h
    | raise e =>
      simp only
      split_ifs <;> exact hr.shrink (fun _ h ↦ h) hleave (fun _ h ↦ h) fun k row h ↦ h

theorem load (hr : Restorable s) (hs : Agrees s) {gs : List (SavedGroup ρ)}
    (hg : ∀ g ∈ gs, Fresh s g.groupId) (hshape : ∀ g ∈ gs, Shaped g.kvMeta) :
    Restorable { s with restores := s.restores ++ [gs] } := by
  have hmem : ∀ g ∈ (s.restores ++ [gs]).flatten, g ∈ s.restores.flatten ∨ g ∈ gs := by
    intro g hg
    simpa using hg
  refine hr.join (fun p hp ↦ ?_) rfl hr.shaped (fun g h ↦ ?_)
  · rcases mem_weights.mp hp with h | h | ⟨g, h, rfl⟩
    · exact .inl (mem_weights.mpr (.inl h))
    · exact .inl (mem_weights.mpr (.inr (.inl h)))
    · rcases hmem g h with h | h
      · exact .inl (mem_weights.mpr (.inr (.inr ⟨g, h, rfl⟩)))
      · exact .inr fun k hk ↦ noRow_of_fresh hs (hg g h) hk
  · rcases hmem g h with h | h
    · exact hr.restoring g h
    · exact hshape g h

theorem restored (hr : Restorable s) (hs : Agrees s) {i : ℕ} {g : SavedGroup ρ}
    {rest : List (SavedGroup ρ)} (hi : s.restores[i]? = some (g :: rest)) :
    Restorable { s with
      plane := TQReplayBuffer.restoreGroup s.plane g
      restores := if rest = [] then s.restores.eraseIdx i else s.restores.set i rest } := by
  have hgm : g ∈ s.restores.flatten :=
    List.mem_flatten.mpr ⟨_, List.mem_of_getElem? hi, List.mem_cons_self⟩
  have hleft : ∀ h ∈ (if rest = [] then s.restores.eraseIdx i else s.restores.set i rest).flatten,
      h ∈ s.restores.flatten := by
    intro h hh
    split_ifs at hh with hrest
    · obtain ⟨q, hq, hhq⟩ := List.mem_flatten.mp hh
      exact List.mem_flatten.mpr ⟨q, List.mem_of_mem_eraseIdx hq, hhq⟩
    · obtain ⟨q, hq, hhq⟩ := List.mem_flatten.mp hh
      rcases List.mem_or_eq_of_mem_set hq with hq | rfl
      · exact List.mem_flatten.mpr ⟨q, hq, hhq⟩
      · exact List.mem_flatten.mpr ⟨_, List.mem_of_getElem? hi, List.mem_cons_of_mem _ hhq⟩
  have hmem : ∀ y ∈ holders { s with plane := TQReplayBuffer.restoreGroup s.plane g },
      y = g.toSlot ∨ y ∈ holders s := by
    intro y hy
    simp only [holders, TQReplayBuffer.slots_restoreGroup, List.mem_append,
      List.mem_singleton] at hy ⊢
    tauto
  have hweight : (g.groupId, g.startWeight) ∈ weights s :=
    mem_weights.mpr (.inr (.inr ⟨g, hgm, rfl⟩))
  refine hr.write hs (fun p hp ↦ ?_) (fun k row hrow ↦ ?_) (fun y hy m hm ↦ ?_)
    (fun h hh ↦ hr.restoring h (hleft h hh))
  · rcases mem_weights.mp hp with ⟨y, hy, rfl⟩ | h | ⟨h, hh, rfl⟩
    · rcases hmem y hy with rfl | hy
      · exact hweight
      · exact mem_weights.mpr (.inl ⟨y, hy, rfl⟩)
    · exact mem_weights.mpr (.inr (.inl h))
    · exact mem_weights.mpr (.inr (.inr ⟨h, hleft h hh, rfl⟩))
  · refine (eq_of_put hrow).imp_right fun hin ↦ ?_
    exact ⟨_, hweight, mem_rows_saved (hs.restoring g hgm) hin⟩
  · rcases hmem y hy with rfl | hy
    · obtain rfl := Option.some.inj hm
      exact hr.restoring g hgm
    · exact hr.shaped y hy m hm

theorem writeRow (hr : Restorable s) (hs : Agrees s) {k : SampleId} {row : Row ρ}
    (hrow : ∃ p ∈ weights s, p.1 = k.group ∧ row.tag = ⟨p.2⟩) :
    Restorable { s with plane.dp := s.plane.dp.write k row } := by
  refine hr.write hs (fun p hp ↦ hp) (fun j r h ↦ ?_) hr.shaped hr.restoring
  have hput : s.plane.dp.put [(k, row)] j = some r := h
  rcases eq_of_put hput with h | h
  · exact .inl h
  · obtain ⟨rfl, rfl⟩ := Prod.mk.inj (List.mem_singleton.mp h)
    exact .inr hrow

theorem step {t : State ρ} {e : Event ρ} (hr : Restorable s) (hs : Agrees s) (ho : Allowed s e)
    (h : BufferPlane.step cfg s e = some t) : Restorable t := by
  cases e with
  | reserve g w target =>
    obtain rfl := Option.some.inj h
    exact hr.reserve hs ho w target
  | commit g record v w =>
    simp only [BufferPlane.step] at h
    cases hstart : Commit.start cfg s.plane g record v w with
    | suspended c =>
      obtain ⟨rfl, hg, _⟩ := Commit.start_eq_suspended hstart
      rw [hstart] at h
      obtain rfl := Option.some.inj h
      exact hr.commit hg (ho hg).2
    | returned m => exact absurd hstart Commit.start_ne_returned
    | raised err =>
      rw [hstart] at h
      obtain rfl := Option.some.inj h
      exact hr
  | writeRow i j =>
    simp only [BufferPlane.step, Option.bind_eq_bind, Option.bind_eq_some_iff] at h
    obtain ⟨c, hc, r, hrow, h⟩ := h
    cases hstage : c.stage with
    | enrich => simp [hstage] at h
    | clear err => simp [hstage] at h
    | put =>
      simp only [hstage, Option.some.injEq] at h
      subst h
      refine hr.writeRow hs ⟨_, mem_weights.mpr (.inr (.inl ⟨c, List.mem_of_getElem? hc, rfl⟩)), ?_⟩
      exact mem_rows_commit (List.mem_of_getElem? hrow)
  | resumeCommit i reply =>
    simp only [BufferPlane.step, Option.bind_eq_bind, Option.bind_eq_some_iff] at h
    obtain ⟨c, hc, h⟩ := h
    obtain rfl := Option.some.inj h
    exact hr.resumeCommit hs reply hc
  | remove idxs removeInDp =>
    obtain rfl := Option.some.inj h
    exact hr.remove ho removeInDp
  | removeGroup g removeInDp =>
    simp only [BufferPlane.step] at h
    cases hidx : s.plane.buffer.index g with
    | none =>
      rw [hidx] at h
      obtain rfl := Option.some.inj h
      exact hr
    | some i =>
      rw [hidx] at h
      obtain rfl := Option.some.inj h
      exact hr.remove (List.nodup_singleton i) removeInDp
  | evicted i reply =>
    simp only [BufferPlane.step, Option.bind_eq_bind, Option.bind_eq_some_iff] at h
    obtain ⟨ids, hi, h⟩ := h
    cases reply with
    | ok =>
      obtain rfl := Option.some.inj h
      exact hr.shrink (fun _ h ↦ h) (fun _ h ↦ h) (fun _ h ↦ h) fun _ _ h ↦ eq_of_clear h
    | raise err =>
      obtain rfl := Option.some.inj h
      exact hr.shrink (fun _ h ↦ h) (fun _ h ↦ h) (fun _ h ↦ h) fun _ _ h ↦ h
  | trainerClear i reply =>
    simp only [BufferPlane.step, Option.bind_eq_bind, Option.bind_eq_some_iff] at h
    obtain ⟨x, hi, h⟩ := h
    cases reply with
    | ok =>
      obtain rfl := Option.some.inj h
      refine hr.shrink (fun y hy ↦ ?_) (fun _ h ↦ h) (fun _ h ↦ h) fun _ _ h ↦ eq_of_clear h
      exact (List.mem_append.mp hy).elim (List.mem_append_left _)
        fun hy ↦ List.mem_append_right _ (List.mem_of_mem_eraseIdx hy)
    | raise err =>
      obtain rfl := Option.some.inj h
      exact hr
  | promote target =>
    obtain rfl := Option.some.inj h
    exact hr.promote hs target
  | stateDict =>
    obtain rfl := Option.some.inj h
    exact { hr with }
  | fetched i reply =>
    simp only [BufferPlane.step] at h
    split at h
    · split at h <;>
      · obtain rfl := Option.some.inj h
        exact { hr with }
    · obtain rfl := Option.some.inj h
      exact { hr with }
    · simp at h
  | load env maxGroups partitionId groupSize =>
    simp only [BufferPlane.step] at h
    cases hp : TQReplayBuffer.preflight env maxGroups partitionId groupSize with
    | error err =>
      rw [hp] at h
      obtain rfl := Option.some.inj h
      exact hr
    | ok gs =>
      simp only [Allowed, hp] at ho
      have hshape : ∀ g ∈ gs, Shaped g.kvMeta := fun g hg ↦ shaped_of_preflight hp hg
      cases gs with
      | nil =>
        rw [hp] at h
        obtain rfl := Option.some.inj h
        exact hr
      | cons g gs =>
        rw [hp] at h
        obtain rfl := Option.some.inj h
        exact hr.load hs (fun x hx ↦ (ho.2 x hx).2) hshape
  | restoreRow i j =>
    simp only [BufferPlane.step, Option.bind_eq_bind, Option.bind_eq_some_iff] at h
    obtain ⟨queue, hq, g, hg, r, hrow, h⟩ := h
    obtain rfl := Option.some.inj h
    have hgm : g ∈ s.restores.flatten :=
      List.mem_flatten.mpr ⟨queue, List.mem_of_getElem? hq, List.mem_of_mem_head? hg⟩
    refine hr.writeRow hs ⟨_, mem_weights.mpr (.inr (.inr ⟨g, hgm, rfl⟩)), ?_⟩
    exact mem_rows_saved (hs.restoring g hgm) (List.mem_of_getElem? hrow)
  | restored i reply =>
    simp only [BufferPlane.step] at h
    split at h
    next g rest hi =>
      obtain rfl := Option.some.inj h
      exact hr.restored hs hi
    next g rest err hi =>
      obtain rfl := Option.some.inj h
      refine hr.shrink (fun _ h ↦ h) (fun _ h ↦ h) (fun x hx ↦ ?_) fun _ _ h ↦ h
      obtain ⟨q, hq, hxq⟩ := List.mem_flatten.mp hx
      exact List.mem_flatten.mpr ⟨q, List.mem_of_mem_eraseIdx hq, hxq⟩
    next => simp at h

end Restorable

theorem Reaches.restorable (h : Reaches cfg s) : Restorable s := by
  refine h.invariant_of (fun _ hs ↦ ?_) fun _ _ _ hreach hr ho hstep ↦
    hr.step (Reaches.agrees hreach) ho hstep
  rw [hs]
  exact ⟨by simp [BufferPlane.init, KeyedStore.empty], by simp [holders, BufferPlane.init],
    by simp [BufferPlane.init]⟩

theorem shaped_sized {g : SavedGroup ρ} {n : ℕ} (hs : Shaped g.kvMeta)
    (hd : DescribesGroup g.kvMeta g.startWeight g.groupId)
    (hn : g.kvMeta.sampleIds.length = n) : g.Sized n := by
  obtain ⟨_, ls, hls, hlen⟩ := hs
  refine ⟨hn, ?_, ?_⟩
  · rw [hd.2, Option.map_some, List.length_replicate, hn]
  · rw [hls, Option.map_some, hlen, hn]

/-- The state dict of a reachable buffer holds its ready slots, in order, with
their rows, and passes the checks of a restore. -/
theorem Reaches.saved (h : Reaches cfg s) {n : ℕ}
    (hn : ∀ x ∈ s.plane.buffer.snapshot, x.rowIds.length = n) :
    ∃ groups : List (SavedGroup ρ),
      s.plane.buffer.snapshot.mapM (TQReplayBuffer.fetchGroup s.plane.dp) = some groups ∧
      groups.map SavedGroup.toSlot = s.plane.buffer.snapshot ∧
      (∀ g ∈ groups, TQReplayBuffer.Fetched s.plane.dp g) ∧
      TQReplayBuffer.WellSized n groups := by
  have hs := Reaches.agrees h
  have hr := Reaches.restorable h
  have hmem : ∀ x ∈ s.plane.buffer.snapshot, x ∈ s.plane.buffer.slots ∧ x.ready = true :=
    fun x hx ↦ List.mem_filter.mp hx
  have hfetch : ∀ x ∈ s.plane.buffer.snapshot, ∃ g : SavedGroup ρ,
      TQReplayBuffer.fetchGroup s.plane.dp x = some g ∧ g.toSlot = x ∧
        TQReplayBuffer.Fetched s.plane.dp g := by
    intro x hx
    obtain ⟨hx, hready⟩ := hmem x hx
    have hxh : x ∈ holders s := List.mem_append_left _ hx
    obtain ⟨m, hm⟩ := Option.isSome_iff_exists.mp ((hs.ready_iff x hxh).mp hready)
    obtain ⟨hgroup, htags⟩ := hs.describes x hxh m hm
    have hids : x.rowIds = m.sampleIds := by rw [Slot.rowIds, hm]; rfl
    have hfound : ∀ k ∈ m.sampleIds, ∃ payload,
        s.plane.dp k = some ⟨payload, ⟨x.startWeight⟩⟩ := by
      intro k hk
      have hheld := hs.present k (List.mem_flatMap.mpr ⟨x, hxh, hids ▸ hk⟩)
      obtain ⟨row, hrow⟩ := Option.isSome_iff_exists.mp hheld
      have htag := hr.tags k row hrow _ (mem_weights.mpr (.inl ⟨x, hxh, rfl⟩)) (hgroup k hk).symm
      exact ⟨row.payload, by rw [hrow, ← htag]⟩
    obtain ⟨g, hg, hslot, hrows⟩ := TQReplayBuffer.fetchGroup_spec hm hready htags hfound
    have hgm : g.kvMeta = m := by
      have hkv := congrArg Slot.kvMeta hslot
      rw [hm] at hkv
      exact Option.some.inj hkv
    refine ⟨g, hg, hslot, ?_⟩
    unfold TQReplayBuffer.Fetched
    rw [hgm]
    exact hrows
  obtain ⟨groups, hgroups, hback⟩ := exists_forall₂ hfetch
  have hslots : groups.map SavedGroup.toSlot = s.plane.buffer.snapshot := by
    have heq : List.Forall₂ Eq s.plane.buffer.snapshot (groups.map SavedGroup.toSlot) :=
      List.forall₂_map_right_iff.mpr (hgroups.imp fun _ _ h ↦ h.2.1.symm)
    exact (List.forall₂_eq_eq_eq ▸ heq).symm
  have hholder : ∀ g ∈ groups, g.toSlot ∈ holders s := fun g hg ↦
    List.mem_append_left _ (hmem _ (hslots ▸ List.mem_map_of_mem hg)).1
  have hshape : ∀ g ∈ groups, Shaped g.kvMeta := fun g hg ↦ hr.shaped _ (hholder g hg) _ rfl
  have hdesc : ∀ g ∈ groups, DescribesGroup g.kvMeta g.startWeight g.groupId := fun g hg ↦
    hs.describes _ (hholder g hg) _ rfl
  have hnames : (groups.map SavedGroup.groupId).Nodup := by
    have hsub : (s.plane.buffer.snapshot.map Slot.groupId).Sublist
        (s.plane.buffer.slots.map Slot.groupId) := List.filter_sublist.map _
    have hall := hs.nodup.of_append_left
    rw [holders, List.map_append] at hall
    have hnd := hall.of_append_left.sublist hsub
    rwa [← hslots, List.map_map] at hnd
  refine ⟨groups, mapM_eq_some (hgroups.imp fun _ _ h ↦ h.1), hslots,
    fun g hg ↦ ?_, fun g hg ↦ ?_, ?_⟩
  · obtain ⟨x, _, hx⟩ := hback g hg
    exact hx.2.2
  · exact shaped_sized (hshape g hg) (hdesc g hg)
      (hn g.toSlot (hslots ▸ List.mem_map_of_mem hg))
  · refine List.nodup_flatMap.mpr ⟨fun g hg ↦ (hshape g hg).1, ?_⟩
    refine (List.pairwise_map.mp hnames).imp_of_mem fun {g g'} hg hg' hne k hk hk' ↦ hne ?_
    rw [← (hdesc g hg).1 k hk, ← (hdesc g' hg').1 k hk']

theorem loadStateDict_ofSaved {dp : KeyedStore SampleId (Row ρ)} {groups gs : List (SavedGroup ρ)}
    (partition : String) (capacity : ℕ) {maxGroups n : ℕ}
    (hsized : TQReplayBuffer.WellSized n groups) (hf : ∀ g ∈ groups, TQReplayBuffer.Fetched dp g)
    (htrunc : TQReplayBuffer.truncate maxGroups groups = .ok gs) (hsub : gs.Sublist groups) :
    ∃ q, TQReplayBuffer.loadStateDict (⟨.empty, .empty⟩ : Plane ρ)
        (Envelope.ofSaved partition capacity groups) maxGroups partition n = (q, .ok gs.length) ∧
      TQReplayBuffer.Replicates dp (gs.map SavedGroup.toSlot) q := by
  have hpre : TQReplayBuffer.preflight (Envelope.ofSaved partition capacity groups) maxGroups
      partition n = .ok gs :=
    TQReplayBuffer.preflight_ok_iff.mpr ⟨capacity, groups, rfl, hsized, htrunc⟩
  refine ⟨gs.foldl TQReplayBuffer.restoreGroup ⟨.empty, .empty⟩, ?_, ?_⟩
  · simp only [TQReplayBuffer.loadStateDict, hpre]
  · exact TQReplayBuffer.restore_replicates (fun g hg ↦ hf g (hsub.subset hg))
      (hsized.nodup.sublist (hsub.flatMap fun g ↦ g.kvMeta.sampleIds))

/-- The slot at one position is fresher than the slot at another. -/
def Fresher (slots : List Slot) (i j : ℕ) : Prop :=
  ∀ x y, slots[i]? = some x → slots[j]? = some y →
    y.startWeight < x.startWeight ∨ (y.startWeight = x.startWeight ∧ j < i)

/-- A state dict restores to the ready slots and their rows, or to the freshest
of them where they do not fit, and a malformed state restores to nothing. -/
theorem buffer_checkpoint_round_trip (cfg : BufferConfig) :
    (∀ (s : State ρ) (n capacity : ℕ), Reaches cfg s →
      (∀ x ∈ s.plane.buffer.snapshot, x.rowIds.length = n) →
      ∃ env, TQReplayBuffer.stateDict s.plane cfg.partitionId capacity = some env ∧
        ∀ maxGroups,
          (s.plane.buffer.snapshot.length ≤ maxGroups →
            ∃ q, TQReplayBuffer.loadStateDict ⟨.empty, .empty⟩ env maxGroups cfg.partitionId n =
                (q, .ok s.plane.buffer.snapshot.length) ∧
              TQReplayBuffer.Replicates s.plane.dp s.plane.buffer.snapshot q) ∧
          (maxGroups < s.plane.buffer.snapshot.length →
            (∀ x ∈ s.plane.buffer.snapshot, x.targetStep = none) →
            ∃ q idxs, TQReplayBuffer.loadStateDict ⟨.empty, .empty⟩ env maxGroups
                cfg.partitionId n = (q, .ok maxGroups) ∧
              TQReplayBuffer.Replicates s.plane.dp (entriesAt s.plane.buffer.snapshot idxs) q ∧
              idxs.length = maxGroups ∧ idxs.Pairwise (· < ·) ∧
              (∀ i ∈ idxs, i < s.plane.buffer.snapshot.length) ∧
              ∀ i ∈ idxs, ∀ j < s.plane.buffer.snapshot.length, j ∉ idxs →
                Fresher s.plane.buffer.snapshot i j)) ∧
    ∀ (p : Plane ρ) (env : Envelope ρ) (maxGroups n : ℕ) (partition : String),
      (∃ e, TQReplayBuffer.loadStateDict p env maxGroups partition n = (p, .error e)) ↔
        TQReplayBuffer.Malformed env maxGroups partition n := by
  refine ⟨fun s n capacity h hn ↦ ?_, fun p env maxGroups n partition ↦
    TQReplayBuffer.loadStateDict_error_iff⟩
  obtain ⟨groups, hsave, hslots, hf, hsized⟩ := Reaches.saved h hn
  have hlen : groups.length = s.plane.buffer.snapshot.length := by
    rw [← hslots, List.length_map]
  refine ⟨_, by rw [TQReplayBuffer.stateDict, hsave]; rfl, fun maxGroups ↦ ⟨fun hfit ↦ ?_,
    fun hover hplain ↦ ?_⟩⟩
  · have htrunc : TQReplayBuffer.truncate maxGroups groups = .ok groups :=
      if_neg (by omega)
    obtain ⟨q, hload, hq⟩ := loadStateDict_ofSaved cfg.partitionId capacity
      hsized hf htrunc (List.Sublist.refl groups)
    exact ⟨q, hlen ▸ hload, hslots ▸ hq⟩
  · have hbare : ¬ (groups.any fun g ↦ g.targetStep.isSome) = true := by
      rw [List.any_eq_true]
      rintro ⟨g, hg, htarget⟩
      have hnone := hplain g.toSlot (hslots ▸ List.mem_map_of_mem hg)
      rw [show g.targetStep = none from hnone] at htarget
      cases htarget
    have htrunc : TQReplayBuffer.truncate maxGroups groups =
        .ok (TQReplayBuffer.truncateFreshest maxGroups groups) := by
      unfold TQReplayBuffer.truncate
      rw [if_pos (by omega), if_neg hbare]
    obtain ⟨hlt, hpair, hstale⟩ := TQReplayBuffer.keptIndices_spec maxGroups groups
    have hkept : (TQReplayBuffer.truncateFreshest maxGroups groups).length = maxGroups :=
      TQReplayBuffer.truncateFreshest_length (by omega)
    obtain ⟨q, hload, hq⟩ := loadStateDict_ofSaved cfg.partitionId capacity
      hsized hf htrunc (entriesAt_sublist hpair hlt)
    rw [hkept] at hload
    rw [TQReplayBuffer.truncateFreshest_eq, ← entriesAt_map, hslots] at hq
    refine ⟨q, _, hload, hq, ?_, hpair, hlen ▸ hlt, fun i hi j hj hnot x y hx hy ↦ ?_⟩
    · rw [← length_entriesAt hlt, ← TQReplayBuffer.truncateFreshest_eq, hkept]
    · have hweight : ∀ (k : ℕ) (z : Slot), s.plane.buffer.snapshot[k]? = some z →
          groups[k]?.elim 0 SavedGroup.startWeight = z.startWeight := by
        intro k z hz
        rw [← hslots, List.getElem?_map] at hz
        obtain ⟨g, hg, rfl⟩ := Option.map_eq_some_iff.mp hz
        rw [hg]
        rfl
      have h := hstale i hi j (hlen ▸ hj) hnot
      have hne : j ≠ i := fun heq ↦ hnot (heq ▸ hi)
      unfold TQReplayBuffer.Staler at h
      rw [hweight i x hx, hweight j y hy] at h
      omega

/-- Two groups of one row are committed, the first with the later weights. -/
def savingRun : List (Event ℕ) :=
  [.reserve ⟨0, 0⟩ 4 none, .reserve ⟨1, 1⟩ 3 none,
    .commit ⟨1, 1⟩ ⟨[⟨8, 3, false⟩]⟩ 3 3, .resumeCommit 0 .ok,
    .commit ⟨0, 0⟩ ⟨[⟨7, 3, false⟩]⟩ 4 5, .resumeCommit 0 .ok]

theorem savingRun_ends :
    (execBy (BufferPlane.step nativeConfig) Allowed (init : State ℕ) savingRun).isSome := by
  decide

theorem buffer_checkpoint_round_trip_saving :
    ∃ env, TQReplayBuffer.stateDict
        ((execBy (BufferPlane.step nativeConfig) Allowed init savingRun).get savingRun_ends).plane
        nativeConfig.partitionId 9 = some env ∧
      (∃ q, TQReplayBuffer.loadStateDict ⟨.empty, .empty⟩ env 2 nativeConfig.partitionId 1 =
        (q, .ok 2)) ∧
      ∃ q, ∃ idxs : List ℕ, TQReplayBuffer.loadStateDict ⟨.empty, .empty⟩ env 1
        nativeConfig.partitionId 1 = (q, .ok 1) ∧ idxs.length = 1 := by
  obtain ⟨env, henv, h⟩ := (buffer_checkpoint_round_trip nativeConfig).1 _ 1 9
    (ReachableBy.run initial_init savingRun savingRun_ends) (by decide)
  obtain ⟨q, hq, _⟩ := (h 2).1 (by decide)
  obtain ⟨q₁, idxs, hq₁, _, hlen, _⟩ := (h 1).2 (by decide) (by decide)
  exact ⟨env, henv, ⟨q, hq⟩, q₁, idxs, hq₁, hlen⟩

end NemoRL.AsyncUtils.BufferRoundTrip
