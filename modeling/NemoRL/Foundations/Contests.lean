import Mathlib

namespace NemoRL.Foundations.Contests

section Scatter

variable {κ β : Type*} [DecidableEq κ]

def scatterReduce (op : β → β → β) (table : κ → β) (entries : List (κ × β)) : κ → β :=
  entries.foldl (fun table entry ↦
    Function.update table entry.1 (op (table entry.1) entry.2)) table

theorem scatterReduce_cons (op : β → β → β) (table : κ → β) (entry : κ × β)
    (entries : List (κ × β)) :
    scatterReduce op table (entry :: entries) =
      scatterReduce op (Function.update table entry.1 (op (table entry.1) entry.2)) entries :=
  rfl

variable [LinearOrder β]

theorem isLeast_insert_min {a b : β} {S : Set β} {x : β} (h : IsLeast (insert (min a b) S) x) :
    IsLeast (insert a (insert b S)) x := by
  refine ⟨?_, ?_⟩
  · rcases Set.mem_insert_iff.mp h.1 with hx | hx
    · rcases min_choice a b with ha | hb
      · exact Set.mem_insert_iff.mpr (.inl (hx.trans ha))
      · exact Set.mem_insert_of_mem _ (Set.mem_insert_iff.mpr (.inl (hx.trans hb)))
    · exact Set.mem_insert_of_mem _ (Set.mem_insert_of_mem _ hx)
  · have hmin : x ≤ min a b := h.2 (Set.mem_insert _ _)
    rintro y (rfl | rfl | hy)
    · exact hmin.trans (min_le_left _ _)
    · exact hmin.trans (min_le_right _ _)
    · exact h.2 (Set.mem_insert_of_mem _ hy)

theorem isLeast_scatterReduce (table : κ → β) (entries : List (κ × β)) (t : κ) :
    IsLeast (insert (table t) {x | (t, x) ∈ entries}) (scatterReduce min table entries t) := by
  induction entries generalizing table with
  | nil => simp [scatterReduce]
  | cons entry entries ih =>
    have hrest := ih (Function.update table entry.1 (min (table entry.1) entry.2))
    rw [scatterReduce_cons]
    by_cases ht : t = entry.1
    · obtain rfl := ht
      rw [Function.update_self] at hrest
      have hset : {x | (entry.1, x) ∈ entry :: entries} =
          insert entry.2 {x | (entry.1, x) ∈ entries} := by
        ext x
        simp [Prod.ext_iff]
      rw [hset]
      exact isLeast_insert_min hrest
    · rw [Function.update_of_ne ht] at hrest
      have hset : {x | (t, x) ∈ entry :: entries} = {x | (t, x) ∈ entries} := by
        ext x
        simp [Prod.ext_iff, ht]
      rw [hset]
      exact hrest

theorem isGreatest_scatterReduce (table : κ → β) (entries : List (κ × β)) (t : κ) :
    IsGreatest (insert (table t) {x | (t, x) ∈ entries}) (scatterReduce max table entries t) :=
  @isLeast_scatterReduce κ βᵒᵈ _ _ table entries t

end Scatter

section Leaders

variable {α κ ρ : Type*} [LinearOrder ρ] {key : α → κ} {rank : α → ρ} {l : List α} {x y : α}

def Leads (key : α → κ) (rank : α → ρ) (l : List α) (x : α) : Prop :=
  x ∈ l ∧ ∀ y ∈ l, key y = key x → rank x ≤ rank y

theorem Leads.unique (hrank : Set.InjOn rank {z | z ∈ l}) (hx : Leads key rank l x)
    (hy : Leads key rank l y) (hkey : key x = key y) : x = y :=
  hrank hx.1 hy.1 ((hx.2 y hy.1 hkey.symm).antisymm (hy.2 x hx.1 hkey))

theorem exists_leads (h : x ∈ l) : ∃ y, Leads key rank l y ∧ key y = key x := by
  classical
  have hne : ((l.filter fun y ↦ key y = key x).map rank).toFinset.Nonempty := by
    refine ⟨rank x, ?_⟩
    rw [List.mem_toFinset]
    exact List.mem_map_of_mem (List.mem_filter.mpr ⟨h, decide_eq_true rfl⟩)
  obtain ⟨y, hy, hmin⟩ := List.mem_map.mp (List.mem_toFinset.mp (Finset.min'_mem _ hne))
  obtain ⟨hmem, hkey⟩ := List.mem_filter.mp hy
  refine ⟨y, ⟨hmem, fun z hz hzy ↦ ?_⟩, of_decide_eq_true hkey⟩
  rw [hmin]
  refine Finset.min'_le _ _ (List.mem_toFinset.mpr (List.mem_map_of_mem ?_))
  exact List.mem_filter.mpr ⟨hz, decide_eq_true (hzy.trans (of_decide_eq_true hkey))⟩

theorem leads_concat_of_ne (hkey : key x ≠ key y) :
    Leads key rank (l ++ [y]) x ↔ Leads key rank l x := by
  constructor
  · rintro ⟨hmem, hle⟩
    rcases List.mem_append.mp hmem with hl | hy
    · exact ⟨hl, fun z hz ↦ hle z (List.mem_append_left _ hz)⟩
    · exact absurd (congrArg key (List.mem_singleton.mp hy)) hkey
  · rintro ⟨hmem, hle⟩
    refine ⟨List.mem_append_left _ hmem, fun z hz hzx ↦ ?_⟩
    rcases List.mem_append.mp hz with hl | hy
    · exact hle z hl hzx
    · obtain rfl := List.mem_singleton.mp hy
      exact absurd hzx.symm hkey

/-- A new entry takes the lead of the key when it comes before the one that had it. -/
theorem leads_concat (hx : Leads key rank l x) (hkey : key y = key x) :
    Leads key rank (l ++ [y]) (if rank y < rank x then y else x) := by
  split_ifs with hlt
  · refine ⟨List.mem_append_right _ (List.mem_singleton.mpr rfl), fun z hz hzy ↦ ?_⟩
    rcases List.mem_append.mp hz with hl | hz
    · exact hlt.le.trans (hx.2 z hl (hzy.trans hkey))
    · obtain rfl := List.mem_singleton.mp hz
      exact le_rfl
  · refine ⟨List.mem_append_left _ hx.1, fun z hz hzx ↦ ?_⟩
    rcases List.mem_append.mp hz with hl | hz
    · exact hx.2 z hl hzx
    · obtain rfl := List.mem_singleton.mp hz
      exact not_lt.mp hlt

theorem leads_concat_new (h : ∀ z ∈ l, key z ≠ key y) : Leads key rank (l ++ [y]) y := by
  refine ⟨List.mem_append_right _ (List.mem_singleton.mpr rfl), fun z hz hzy ↦ ?_⟩
  rcases List.mem_append.mp hz with hl | hz
  · exact absurd hzy (h z hl)
  · obtain rfl := List.mem_singleton.mp hz
    exact le_rfl

end Leaders

section Scan

variable {α κ ρ : Type*} [DecidableEq κ] [LinearOrder ρ] {key : α → κ} {rank : α → ρ}
  {beats : α → α → Bool} {l : List α}

/-- One entry after the other, a key keeping the entry that no later one beats. -/
def scanStep (key : α → κ) (beats : α → α → Bool) (best : κ → Option α) (c : α) : κ → Option α :=
  Function.update best (key c)
    (some (((best (key c)).filter fun b ↦ !beats c b).getD c))

def scan (key : α → κ) (beats : α → α → Bool) (l : List α) : κ → Option α :=
  l.foldl (scanStep key beats) fun _ ↦ none

theorem scan_concat (l : List α) (c : α) :
    scan key beats (l ++ [c]) = scanStep key beats (scan key beats l) c := by
  rw [scan, List.foldl_append]
  rfl

/-- Where a later entry beats an earlier one of its key exactly when it comes before it in rank,
the scan ends with the leaders. -/
theorem scan_leads
    (h : l.Pairwise fun b c ↦ key b = key c → (beats c b = true ↔ rank c < rank b)) (t : κ) :
    (scan key beats l t = none ∧ ∀ x ∈ l, key x ≠ t) ∨
      ∃ x, scan key beats l t = some x ∧ Leads key rank l x ∧ key x = t := by
  induction l using List.reverseRecOn with
  | nil => exact .inl ⟨rfl, fun x hx ↦ absurd hx List.not_mem_nil⟩
  | append_singleton l c ih =>
    obtain ⟨hl, -, hlast⟩ := List.pairwise_append.mp h
    rw [scan_concat, scanStep]
    by_cases ht : t = key c
    · obtain rfl := ht
      right
      rw [Function.update_self]
      rcases ih hl with ⟨hbest, hnew⟩ | ⟨b, hbest, hleads, hkey⟩
      · exact ⟨c, by rw [hbest]; rfl, leads_concat_new hnew, rfl⟩
      · have hnext := leads_concat hleads hkey.symm
        have hbeats := hlast b hleads.1 c (List.mem_singleton.mpr rfl) hkey
        by_cases hlt : rank c < rank b
        · rw [if_pos hlt] at hnext
          exact ⟨c, by rw [hbest, Option.filter_some, hbeats.mpr hlt]; rfl, hnext, rfl⟩
        · rw [if_neg hlt] at hnext
          have hkeep : beats c b = false := Bool.eq_false_iff.mpr fun hb ↦ hlt (hbeats.mp hb)
          exact ⟨b, by rw [hbest, Option.filter_some, hkeep]; rfl, hnext, hkey⟩
    · rw [Function.update_of_ne ht]
      rcases ih hl with ⟨hbest, hnew⟩ | ⟨b, hbest, hleads, hkey⟩
      · refine .inl ⟨hbest, fun x hx ↦ ?_⟩
        rcases List.mem_append.mp hx with hx | hx
        · exact hnew x hx
        · obtain rfl := List.mem_singleton.mp hx
          exact fun hkey ↦ ht hkey.symm
      · refine .inr ⟨b, hbest, (leads_concat_of_ne ?_).mpr hleads, hkey⟩
        rw [hkey]
        exact ht

theorem scan_eq_some_iff
    (h : l.Pairwise fun b c ↦ key b = key c → (beats c b = true ↔ rank c < rank b))
    (hrank : Set.InjOn rank {z | z ∈ l}) {t : κ} {x : α} :
    scan key beats l t = some x ↔ Leads key rank l x ∧ key x = t := by
  rcases scan_leads h t with ⟨hbest, hnone⟩ | ⟨b, hbest, hleads, hkey⟩
  · rw [hbest]
    exact ⟨fun hx ↦ (Option.some_ne_none x hx.symm).elim, fun hx ↦ absurd hx.2 (hnone x hx.1.1)⟩
  · rw [hbest, Option.some.injEq]
    constructor
    · rintro rfl
      exact ⟨hleads, hkey⟩
    · rintro ⟨hx, hxkey⟩
      exact hleads.unique hrank hx (hkey.trans hxkey.symm)

end Scan

end NemoRL.Foundations.Contests
