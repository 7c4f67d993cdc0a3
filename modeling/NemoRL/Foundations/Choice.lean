import Mathlib

namespace NemoRL.Foundations.Choice

variable {α : Type*}

/-- A rule for what to keep of a finite set. A set that lost only what the rule
drops of it is no different to the rule from the whole. -/
structure PathIndependent (keep : Finset α → Finset α) : Prop where
  subset : ∀ S, keep S ⊆ S
  heritage : ∀ {S T}, S ⊆ T → ∀ x ∈ S, x ∈ keep T → x ∈ keep S
  outcast : ∀ {S T}, keep T ⊆ S → S ⊆ T → keep S ⊆ keep T

namespace PathIndependent

variable {keep keep' : Finset α → Finset α} {S T : Finset α}

theorem eq_of_between (h : PathIndependent keep) (hkeep : keep T ⊆ S) (hsub : S ⊆ T) :
    keep S = keep T := by
  refine (h.outcast hkeep hsub).antisymm fun x hx ↦ ?_
  exact h.heritage hsub x (hkeep hx) hx

theorem idempotent (h : PathIndependent keep) (S : Finset α) : keep (keep S) = keep S :=
  h.eq_of_between (Finset.Subset.refl _) (h.subset S)

theorem keep_union [DecidableEq α] (h : PathIndependent keep) (hkeep : keep T ⊆ S) (hsub : S ⊆ T)
    (N : Finset α) : keep (S ∪ N) = keep (T ∪ N) := by
  refine h.eq_of_between (fun x hx ↦ ?_) (Finset.union_subset_union_left hsub)
  rcases Finset.mem_union.mp (h.subset _ hx) with hT | hN
  · have hold := h.heritage Finset.subset_union_left x hT hx
    exact Finset.mem_union_left _ (hkeep hold)
  · exact Finset.mem_union_right _ hN

theorem union [DecidableEq α] (h : PathIndependent keep) (h' : PathIndependent keep') :
    PathIndependent fun S ↦ keep S ∪ keep' S where
  subset S := Finset.union_subset (h.subset S) (h'.subset S)
  heritage hsub x hx hmem := by
    rcases Finset.mem_union.mp hmem with hkeep | hkeep
    · exact Finset.mem_union_left _ (h.heritage hsub x hx hkeep)
    · exact Finset.mem_union_right _ (h'.heritage hsub x hx hkeep)
  outcast hkeep hsub := by
    obtain ⟨hleft, hright⟩ := Finset.union_subset_iff.mp hkeep
    exact Finset.union_subset_union (h.outcast hleft hsub) (h'.outcast hright hsub)

theorem id : PathIndependent fun S : Finset α ↦ S where
  subset _ := Finset.Subset.refl _
  heritage _ _ hx _ := hx
  outcast _ hsub := hsub

theorem empty : PathIndependent fun _ : Finset α ↦ ∅ where
  subset _ := Finset.empty_subset _
  heritage _ _ _ hmem := absurd hmem (Finset.notMem_empty _)
  outcast _ _ := Finset.Subset.refl _

theorem filter (h : PathIndependent keep) (p : α → Prop) [DecidablePred p] :
    PathIndependent fun S ↦ keep (S.filter p) where
  subset S := (h.subset _).trans (Finset.filter_subset p S)
  heritage hsub x hx hmem := by
    have hp := (Finset.mem_filter.mp (h.subset _ hmem)).2
    exact h.heritage (Finset.filter_subset_filter p hsub) x (Finset.mem_filter.mpr ⟨hx, hp⟩) hmem
  outcast hkeep hsub := by
    refine h.outcast (fun x hx ↦ ?_) (Finset.filter_subset_filter p hsub)
    exact Finset.mem_filter.mpr ⟨hkeep hx, (Finset.mem_filter.mp (h.subset _ hx)).2⟩

end PathIndependent

section Top

variable {β : Type*} [LinearOrder β] {key : α → β} {k : ℕ}

def top (key : α → β) (k : ℕ) (S : Finset α) : Finset α :=
  S.filter fun x ↦ (S.filter fun y ↦ key x < key y).card < k

theorem mem_top {S : Finset α} {x : α} :
    x ∈ top key k S ↔ x ∈ S ∧ (S.filter fun y ↦ key x < key y).card < k :=
  Finset.mem_filter

/-- The entries before one that is not among the first are crowded by those that are. -/
theorem card_top_of_le {S : Finset α} {x : α}
    (h : k ≤ (S.filter fun y ↦ key x < key y).card) :
    k ≤ ((top key k S).filter fun y ↦ key x < key y).card := by
  classical
  by_cases hall : S.filter (fun y ↦ key x < key y) ⊆ top key k S
  · refine h.trans (Finset.card_le_card fun y hy ↦ ?_)
    exact Finset.mem_filter.mpr ⟨hall hy, (Finset.mem_filter.mp hy).2⟩
  · -- the first of the entries before `x` that is not kept has `k` before itself
    have hne : ((S.filter fun y ↦ key x < key y) \ top key k S).Nonempty :=
      Finset.sdiff_nonempty.mpr hall
    obtain ⟨y, hy, hmax⟩ := Finset.exists_max_image _ key hne
    obtain ⟨hbefore, hdropped⟩ := Finset.mem_sdiff.mp hy
    obtain ⟨hS, hlt⟩ := Finset.mem_filter.mp hbefore
    have hcrowd : k ≤ (S.filter fun z ↦ key y < key z).card := by
      by_contra hfew
      exact hdropped (mem_top.mpr ⟨hS, not_le.mp hfew⟩)
    refine hcrowd.trans (Finset.card_le_card fun z hz ↦ ?_)
    obtain ⟨hzS, hyz⟩ := Finset.mem_filter.mp hz
    have hxz := hlt.trans hyz
    refine Finset.mem_filter.mpr ⟨?_, hxz⟩
    by_contra hzdropped
    have hle := hmax z (Finset.mem_sdiff.mpr ⟨Finset.mem_filter.mpr ⟨hzS, hxz⟩, hzdropped⟩)
    exact absurd hyz (not_lt.mpr hle)

theorem top_pathIndependent (key : α → β) (k : ℕ) : PathIndependent (top key k) where
  subset S := Finset.filter_subset _ S
  heritage hsub x hx hmem := by
    obtain ⟨-, hfew⟩ := mem_top.mp hmem
    refine mem_top.mpr ⟨hx, lt_of_le_of_lt (Finset.card_le_card ?_) hfew⟩
    exact Finset.filter_subset_filter _ hsub
  outcast {S T} hkeep hsub x hx := by
    obtain ⟨hmem, hfew⟩ := mem_top.mp hx
    refine mem_top.mpr ⟨hsub hmem, ?_⟩
    by_contra hmany
    have hcrowd := card_top_of_le (not_lt.mp hmany)
    have hle := Finset.card_le_card (Finset.filter_subset_filter (fun y ↦ key x < key y) hkeep)
    omega

theorem mem_take_iff {l : List α} (h : l.Pairwise fun x y ↦ key y < key x) {x : α} :
    x ∈ l.take k ↔ x ∈ l ∧ l.countP (key x < key ·) < k := by
  induction l generalizing k with
  | nil =>
    rw [List.take_nil]
    exact ⟨fun hx ↦ absurd hx List.not_mem_nil, fun hx ↦ absurd hx.1 List.not_mem_nil⟩
  | cons a l ih =>
    obtain ⟨hlt, hl⟩ := List.pairwise_cons.mp h
    cases k with
    | zero =>
      rw [List.take_zero]
      exact ⟨fun hx ↦ absurd hx List.not_mem_nil, fun hx ↦ absurd hx.2 (Nat.not_lt_zero _)⟩
    | succ k =>
      rw [List.take_succ_cons, List.mem_cons, List.mem_cons, List.countP_cons, ih hl]
      constructor
      · rintro (rfl | ⟨hx, hfew⟩)
        · have hnone : l.countP (key x < key ·) = 0 := List.countP_eq_zero.mpr fun y hy hxy ↦
            absurd (of_decide_eq_true hxy) (not_lt.mpr (hlt y hy).le)
          rw [hnone, if_neg (by simp)]
          exact ⟨.inl rfl, Nat.succ_pos k⟩
        · rw [if_pos (decide_eq_true (hlt x hx))]
          exact ⟨.inr hx, Nat.succ_lt_succ hfew⟩
      · rintro ⟨rfl | hx, hfew⟩
        · exact .inl rfl
        · rw [if_pos (decide_eq_true (hlt x hx))] at hfew
          exact .inr ⟨hx, Nat.lt_of_succ_lt_succ hfew⟩

theorem mem_take_insertionSort [DecidableEq α] {l : List α} (hnd : l.Nodup)
    (hinj : ∀ x ∈ l, ∀ y ∈ l, key x = key y → x = y) {x : α} :
    x ∈ (l.insertionSort fun x y ↦ key y ≤ key x).take k ↔ x ∈ top key k l.toFinset := by
  have hperm : (l.insertionSort fun x y ↦ key y ≤ key x).Perm l := List.perm_insertionSort _ l
  have htotal : Std.Total fun x y : α ↦ key y ≤ key x := ⟨fun x y ↦ le_total (key y) (key x)⟩
  have htrans : IsTrans α fun x y ↦ key y ≤ key x := ⟨fun x y z hxy hyz ↦ hyz.trans hxy⟩
  have hsorted := (List.pairwise_insertionSort (fun x y : α ↦ key y ≤ key x) l).and
    (hperm.nodup_iff.mpr hnd)
  have hstrict : (l.insertionSort fun x y ↦ key y ≤ key x).Pairwise fun x y ↦ key y < key x := by
    refine hsorted.imp_of_mem fun {x y} hx hy ⟨hle, hne⟩ ↦ lt_of_le_of_ne hle fun heq ↦ hne ?_
    exact hinj x (hperm.mem_iff.mp hx) y (hperm.mem_iff.mp hy) heq.symm
  have hcount : (l.toFinset.filter fun y ↦ key x < key y).card = l.countP (key x < key ·) := by
    have hfilter : (l.toFinset.filter fun y ↦ key x < key y) =
        (l.filter fun y ↦ key x < key y).toFinset := by
      ext y
      simp
    rw [hfilter, List.toFinset_card_of_nodup (hnd.filter _), List.countP_eq_length_filter]
  rw [mem_take_iff hstrict, hperm.mem_iff, hperm.countP_eq, mem_top, List.mem_toFinset, hcount]

end Top

section Runs

variable [DecidableEq α] {keep : Finset α → Finset α}

/-- Entries that arrive, and the rule, applied to what is there. -/
inductive Event (α : Type*)
  | arrive (x : α)
  | apply

def arrived (events : List (Event α)) : List α :=
  events.filterMap fun
    | .arrive x => some x
    | .apply => none

def Event.after (keep : Finset α → Finset α) (S : Finset α) : Event α → Finset α
  | .arrive x => insert x S
  | .apply => keep S

/-- After any run, what is there lies between all that arrived and what the rule
keeps of it. -/
theorem PathIndependent.run (h : PathIndependent keep) (events : List (Event α)) :
    events.foldl (Event.after keep) ∅ ⊆ (arrived events).toFinset ∧
      keep (arrived events).toFinset ⊆ events.foldl (Event.after keep) ∅ := by
  induction events using List.reverseRecOn with
  | nil => exact ⟨Finset.Subset.refl _, h.subset _⟩
  | append_singleton events e ih =>
    obtain ⟨hsub, hkeep⟩ := ih
    rw [List.foldl_append, List.foldl_cons, List.foldl_nil]
    cases e with
    | arrive x =>
      have hall : (arrived (events ++ [.arrive x])).toFinset =
          (arrived events).toFinset ∪ {x} := by
        rw [arrived, List.filterMap_append, List.toFinset_append]
        rfl
      have hnow : Event.after keep (events.foldl (Event.after keep) ∅) (.arrive x) =
          events.foldl (Event.after keep) ∅ ∪ {x} := by
        rw [Finset.union_comm]
        rfl
      rw [hall, hnow]
      refine ⟨Finset.union_subset_union_left hsub, ?_⟩
      rw [← h.keep_union hkeep hsub]
      exact h.subset _
    | apply =>
      have hall : arrived (events ++ [.apply]) = arrived events := by
        rw [arrived, List.filterMap_append]
        exact List.append_nil _
      rw [hall]
      refine ⟨(h.subset _).trans hsub, ?_⟩
      exact (h.eq_of_between hkeep hsub).ge

theorem PathIndependent.run_apply (h : PathIndependent keep) (events : List (Event α)) :
    (events ++ [Event.apply]).foldl (Event.after keep) ∅ = keep (arrived events).toFinset := by
  obtain ⟨hsub, hkeep⟩ := h.run events
  rw [List.foldl_append, List.foldl_cons, List.foldl_nil]
  exact h.eq_of_between hkeep hsub

end Runs

end NemoRL.Foundations.Choice
