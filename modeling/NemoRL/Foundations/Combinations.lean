import Mathlib

namespace NemoRL.Foundations.Combinations

variable {α β : Type*}

/-- The choices of `k` entries of a list, in the order of `itertools.combinations`. -/
def combinations : ℕ → List α → List (List α)
  | 0, _ => [[]]
  | _ + 1, [] => []
  | k + 1, x :: l => (combinations k l).map (x :: ·) ++ combinations (k + 1) l

theorem combinations_perm (k : ℕ) (l : List α) : (combinations k l).Perm (l.sublistsLen k) := by
  induction l generalizing k with
  | nil =>
    cases k with
    | zero => rfl
    | succ k => rfl
  | cons x l ih =>
    cases k with
    | zero => rw [combinations, List.sublistsLen_zero]
    | succ k =>
      rw [combinations, List.sublistsLen_succ_cons]
      exact List.perm_append_comm.trans ((ih (k + 1)).append ((ih k).map _))

theorem mem_combinations {k : ℕ} {l s : List α} :
    s ∈ combinations k l ↔ s.Sublist l ∧ s.length = k :=
  (combinations_perm k l).mem_iff.trans List.mem_sublistsLen

theorem length_combinations (k : ℕ) (l : List α) :
    (combinations k l).length = l.length.choose k :=
  (combinations_perm k l).length_eq.trans (List.length_sublistsLen k l)

theorem combinations_map (f : α → β) (k : ℕ) (l : List α) :
    combinations k (l.map f) = (combinations k l).map (List.map f) := by
  induction l generalizing k with
  | nil => cases k <;> rfl
  | cons x l ih =>
    cases k with
    | zero => rfl
    | succ k =>
      rw [List.map_cons, combinations, combinations, ih k, ih (k + 1), List.map_append,
        List.map_map, List.map_map]
      rfl

theorem combinations_filter (p : α → Bool) (k : ℕ) (l : List α) :
    combinations k (l.filter p) = (combinations k l).filter (List.all · p) := by
  induction l generalizing k with
  | nil => cases k <;> rfl
  | cons x l ih =>
    cases k with
    | zero => rw [combinations, combinations, List.filter_singleton, List.all_nil, cond_true]
    | succ k =>
      rw [combinations, List.filter_append, List.filter_map, ← ih (k + 1)]
      cases hx : p x with
      | true =>
        rw [List.filter_cons_of_pos hx, combinations, ih k]
        simp [Function.comp_def, hx]
      | false =>
        rw [List.filter_cons_of_neg (by simp [hx])]
        simp [Function.comp_def, hx]

theorem countP_all_combinations (p : α → Bool) (k : ℕ) (l : List α) :
    (combinations k l).countP (List.all · p) = (l.countP p).choose k := by
  rw [List.countP_eq_length_filter, ← combinations_filter, length_combinations,
    List.countP_eq_length_filter]

theorem combinations_of_perm {l l' : List α} (h : l.Perm l') (k : ℕ) :
    ((combinations k l).map Multiset.ofList).Perm ((combinations k l').map Multiset.ofList) := by
  have hcoe : ∀ l : List α, (((combinations k l).map Multiset.ofList : List (Multiset α)) :
      Multiset (Multiset α)) = Multiset.powersetCard k (l : Multiset α) := by
    intro l
    rw [Multiset.powersetCard_coe, Multiset.coe_eq_coe]
    exact (combinations_perm k l).map _
  rw [← Multiset.coe_eq_coe, hcoe, hcoe, Multiset.coe_eq_coe.mpr h]

/-- What does not see the order of a choice counts the same choices in a reordered list. -/
theorem countP_combinations_of_perm {l l' : List α} {k : ℕ} {p : List α → Bool} (h : l.Perm l')
    (hp : ∀ s ∈ combinations k l, ∀ s', s.Perm s' → p s = p s') :
    (combinations k l).countP p = (combinations k l').countP p := by
  classical
  let q : Multiset α → Bool := fun m ↦ ∃ s ∈ combinations k l, (s : Multiset α) = m ∧ p s = true
  have hperm := combinations_of_perm h k
  have hq : ∀ s ∈ combinations k l, ∀ s', s.Perm s' → p s' = q s' := by
    intro s hs s' hss'
    rw [← hp s hs s' hss', Bool.eq_iff_iff, decide_eq_true_iff]
    constructor
    · exact fun hps ↦ ⟨s, hs, Multiset.coe_eq_coe.mpr hss', hps⟩
    · rintro ⟨t, ht, hts', hpt⟩
      have hts := (Multiset.coe_eq_coe.mp hts').trans hss'.symm
      rw [← hp t ht s hts]
      exact hpt
  have hleft : ∀ s ∈ combinations k l, p s = q s := fun s hs ↦ hq s hs s (List.Perm.refl s)
  have hright : ∀ s' ∈ combinations k l', p s' = q s' := by
    intro s' hs'
    obtain ⟨s, hs, hss'⟩ := List.mem_map.mp (hperm.mem_iff.mpr (List.mem_map_of_mem hs'))
    exact hq s hs s' (Multiset.coe_eq_coe.mp hss')
  calc (combinations k l).countP p
      = ((combinations k l).map Multiset.ofList).countP q := by
        rw [List.countP_map]
        exact List.countP_congr fun s hs ↦ by rw [hleft s hs]; rfl
    _ = ((combinations k l').map Multiset.ofList).countP q := hperm.countP_eq q
    _ = (combinations k l').countP p := by
        rw [List.countP_map]
        exact List.countP_congr fun s hs ↦ by rw [hright s hs]; rfl

end NemoRL.Foundations.Combinations
