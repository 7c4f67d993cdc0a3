import Mathlib

namespace NemoRL.Foundations

/-- A dictionary by its items, in the order of insertion. -/
abbrev Dict (κ ν : Type*) := List (κ × ν)

namespace Dict

variable {κ ν ν' : Type*} [DecidableEq κ] {d : Dict κ ν} {k j : κ} {v : ν}

/-- An item that is there keeps its place. -/
def set (d : Dict κ ν) (k : κ) (v : ν) : Dict κ ν :=
  match d with
  | [] => [(k, v)]
  | item :: d => if item.1 = k then (k, v) :: d else item :: set d k v

def get (d : Dict κ ν) (k : κ) : Option ν := List.lookup k d

@[simp] theorem get_nil (k : κ) : get ([] : Dict κ ν) k = none := rfl

theorem get_cons (item : κ × ν) (d : Dict κ ν) (k : κ) :
    get (item :: d) k = if k = item.1 then some item.2 else get d k := by
  rw [get, List.lookup_cons]
  by_cases h : k = item.1
  · rw [if_pos h, beq_iff_eq.mpr h]
  · rw [if_neg h, beq_eq_false_iff_ne.mpr h]
    rfl

theorem get_set (d : Dict κ ν) (k : κ) (v : ν) (j : κ) :
    get (set d k v) j = if j = k then some v else get d j := by
  induction d with
  | nil => rw [set, get_cons, get_nil]
  | cons item d ih =>
    rw [set]
    by_cases hk : item.1 = k
    · rw [if_pos hk, get_cons, get_cons, hk]
      split_ifs <;> rfl
    · rw [if_neg hk, get_cons, get_cons, ih]
      by_cases hj : j = item.1
      · rw [if_pos hj, if_pos hj, if_neg (by rw [hj]; exact hk)]
      · rw [if_neg hj, if_neg hj]

theorem get_set_self (d : Dict κ ν) (k : κ) (v : ν) : get (set d k v) k = some v := by
  rw [get_set, if_pos rfl]

theorem get_set_of_ne (h : j ≠ k) : get (set d k v) j = get d j := by
  rw [get_set, if_neg h]

theorem mem_set {item : κ × ν} (h : item ∈ set d k v) : item = (k, v) ∨ item ∈ d := by
  induction d with
  | nil => exact .inl (List.mem_singleton.mp h)
  | cons first d ih =>
    rw [set] at h
    split_ifs at h with hk
    · rcases List.mem_cons.mp h with rfl | hd
      · exact .inl rfl
      · exact .inr (List.mem_cons_of_mem _ hd)
    · rcases List.mem_cons.mp h with rfl | hd
      · exact .inr (List.mem_cons_self ..)
      · exact (ih hd).imp_right (List.mem_cons_of_mem _)

theorem isSome_get : (get d k).isSome ↔ k ∈ d.map Prod.fst := by
  induction d with
  | nil => simp
  | cons item d ih =>
    rw [get_cons, List.map_cons, List.mem_cons, ← ih]
    by_cases h : k = item.1
    · simp [h]
    · simp [h]

theorem mem_of_get (h : get d k = some v) : (k, v) ∈ d := by
  induction d with
  | nil => exact absurd h nofun
  | cons item d ih =>
    rw [get_cons] at h
    split_ifs at h with hk
    · rw [hk, ← Option.some.inj h]
      exact List.mem_cons_self ..
    · exact List.mem_cons_of_mem _ (ih h)

theorem mem_keys_set : j ∈ (set d k v).map Prod.fst ↔ j = k ∨ j ∈ d.map Prod.fst := by
  rw [← isSome_get, ← isSome_get, get_set]
  by_cases h : j = k
  · simp [h]
  · simp [h]

theorem keys_set_of_not_mem (h : k ∉ d.map Prod.fst) :
    (set d k v).map Prod.fst = d.map Prod.fst ++ [k] := by
  induction d with
  | nil => rfl
  | cons item d ih =>
    rw [List.map_cons, List.mem_cons, not_or] at h
    rw [set, if_neg (Ne.symm h.1), List.map_cons, List.map_cons, ih h.2, List.cons_append]

theorem get_of_forall {f : κ → ν} (h : ∀ item ∈ d, item.2 = f item.1)
    (hk : k ∈ d.map Prod.fst) : get d k = some (f k) := by
  obtain ⟨v, hv⟩ := Option.isSome_iff_exists.mp (isSome_get.mpr hk)
  exact hv.trans (congrArg some (h _ (mem_of_get hv)))

theorem get_map (f : ν → ν') (d : Dict κ ν) (k : κ) :
    get (d.map fun item ↦ (item.1, f item.2)) k = (get d k).map f := by
  induction d with
  | nil => rfl
  | cons item d ih =>
    rw [List.map_cons, get_cons, get_cons, ih]
    split_ifs <;> rfl

theorem get_filter (P : κ → Bool) (d : Dict κ ν) (k : κ) :
    get (d.filter fun item ↦ P item.1) k = if P k then get d k else none := by
  induction d with
  | nil => simp
  | cons item d ih =>
    rw [List.filter_cons, get_cons]
    by_cases hk : k = item.1
    · subst hk
      cases hP : P item.1
      · rw [if_neg (by simp), ih, hP]
        rfl
      · rw [if_pos rfl, get_cons, if_pos rfl, if_pos rfl, if_pos rfl]
    · cases hP : P item.1
      · rw [if_neg (by simp), ih, if_neg hk]
      · rw [if_pos rfl, get_cons, if_neg hk, if_neg hk, ih]

/-- Items that go together under the same keys. -/
theorem get_of_forall₂ {R : κ → ν → ν' → Prop} {d' : Dict κ ν'}
    (h : List.Forall₂ (fun a b ↦ a.1 = b.1 ∧ R a.1 a.2 b.2) d d') :
    (∀ v, get d k = some v → ∃ v', get d' k = some v' ∧ R k v v') ∧
      (get d k = none → get d' k = none) := by
  induction h with
  | nil => exact ⟨fun v hv ↦ absurd hv (Option.some_ne_none v).symm, fun _ ↦ rfl⟩
  | cons hab _ ih =>
    rw [get_cons, get_cons, ← hab.1]
    split_ifs with hk
    · refine ⟨fun v hv ↦ ⟨_, rfl, ?_⟩, fun hv ↦ hv.elim⟩
      rw [hk, ← Option.some.inj hv]
      exact hab.2
    · exact ih

theorem set_map (f : ν → ν') (d : Dict κ ν) (k : κ) (v : ν) :
    set (d.map fun item ↦ (item.1, f item.2)) k (f v) =
      (set d k v).map fun item ↦ (item.1, f item.2) := by
  induction d with
  | nil => rfl
  | cons item d ih =>
    rw [List.map_cons, set, set, ih]
    split_ifs <;> rfl

/-- The items, each with its value replaced. -/
def mapValues (f : κ → ν → Option ν') (d : Dict κ ν) : Option (Dict κ ν') :=
  d.mapM fun item ↦ (f item.1 item.2).map fun v ↦ (item.1, v)

theorem get_mapValues {f : κ → ν → Option ν'}
    (h : ∀ item ∈ d, ∃ v, f item.1 item.2 = some v) :
    ∃ d', mapValues f d = some d' ∧ ∀ k, get d' k = (get d k).bind (f k) := by
  induction d with
  | nil => exact ⟨[], rfl, fun _ ↦ rfl⟩
  | cons item d ih =>
    obtain ⟨v, hv⟩ := h item (List.mem_cons_self ..)
    obtain ⟨d', hd', hget⟩ := ih fun item hitem ↦ h item (List.mem_cons_of_mem _ hitem)
    refine ⟨(item.1, v) :: d', ?_, fun k ↦ ?_⟩
    · rw [mapValues] at hd' ⊢
      rw [List.mapM_cons, hv, hd']
      rfl
    · rw [get_cons, get_cons, hget]
      split_ifs with hk
      · rw [hk, Option.bind_some, hv]
      · rfl

end Dict

end NemoRL.Foundations
