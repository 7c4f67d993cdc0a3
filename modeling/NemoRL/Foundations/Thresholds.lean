import Mathlib

namespace NemoRL.Foundations.Thresholds

section Ranks

variable {α : Type*} [LinearOrder α]

theorem card_lt_iff_of_monotone {n k : ℕ} {f : Fin n → α} (hf : Monotone f)
    (hkn : n - k < n) (hle : k ≤ n) (x : α) :
    (Finset.univ.filter fun j ↦ x < f j).card < k ↔ f ⟨n - k, hkn⟩ ≤ x := by
  constructor
  · intro hcard
    by_contra hlt
    have hsub : Finset.Ici (⟨n - k, hkn⟩ : Fin n) ⊆ Finset.univ.filter fun j ↦ x < f j := by
      intro j hj
      have hmono := hf (Finset.mem_Ici.mp hj)
      exact Finset.mem_filter.mpr ⟨Finset.mem_univ j, (not_le.mp hlt).trans_le hmono⟩
    have hge := Finset.card_le_card hsub
    rw [Fin.card_Ici] at hge
    change n - (n - k) ≤ _ at hge
    omega
  · intro hx
    have hsub : (Finset.univ.filter fun j ↦ x < f j) ⊆ Finset.Ioi (⟨n - k, hkn⟩ : Fin n) := by
      intro j hj
      refine Finset.mem_Ioi.mpr (lt_of_not_ge fun hle ↦ ?_)
      exact absurd ((hf hle).trans hx) (not_le.mpr (Finset.mem_filter.mp hj).2)
    have hge := Finset.card_le_card hsub
    rw [Fin.card_Ioi] at hge
    change _ ≤ n - 1 - (n - k) at hge
    omega

theorem card_lt_comp_perm {n : ℕ} (f : Fin n → α) (e : Equiv.Perm (Fin n)) (x : α) :
    (Finset.univ.filter fun j ↦ x < f (e j)).card = (Finset.univ.filter fun j ↦ x < f j).card :=
  Finset.card_bij (fun j _ ↦ e j) (by simp) (by simp) fun j hj ↦
    ⟨e.symm j, by simpa using hj, by simp⟩

theorem countP_ofFn {β : Type*} {n : ℕ} (f : Fin n → β) (p : β → Bool) :
    (List.ofFn f).countP p = (Finset.univ.filter fun j ↦ p (f j)).card := by
  have hall : (Finset.univ : Finset (Fin n)).val.map f = (List.ofFn f : Multiset β) :=
    Fin.univ_val_map f
  calc (List.ofFn f).countP p
      = ((Finset.univ : Finset (Fin n)).val.map f).countP (p ·) := by
        rw [hall, Multiset.coe_countP]
        simp
    _ = (Finset.univ.filter fun j ↦ p (f j)).card := by
        rw [Multiset.countP_map]
        rfl

theorem countP_lt_iff_of_pairwise {l : List α} (hl : l.Pairwise (· ≥ ·)) {k : ℕ}
    (hk : k < l.length) (x : α) : l.countP (x < ·) < k + 1 ↔ l[k] ≤ x := by
  induction l generalizing k with
  | nil => simp at hk
  | cons a l ih =>
    obtain ⟨ha, hrest⟩ := List.pairwise_cons.mp hl
    by_cases hx : x < a
    · rw [List.countP_cons_of_pos (by simpa using hx)]
      cases k with
      | zero =>
        have hnot : ¬ a ≤ x := not_le.mpr hx
        simpa using hnot
      | succ k =>
        rw [List.getElem_cons_succ, Nat.add_lt_add_iff_right]
        exact ih hrest (by simpa using hk)
    · have hnone : l.countP (x < ·) = 0 := by
        rw [List.countP_eq_zero]
        intro b hb
        simpa using (ha b hb).trans (not_lt.mp hx)
      have hget : (a :: l)[k] ≤ x := by
        rcases List.mem_cons.mp (List.getElem_mem hk) with heq | hmem
        · exact heq.le.trans (not_lt.mp hx)
        · exact (ha _ hmem).trans (not_lt.mp hx)
      rw [List.countP_cons_of_neg (by simpa using hx), hnone]
      simpa using hget

end Ranks

section Tails

variable {ι K : Type*} [LinearOrder ι] [Fintype ι] [LocallyFiniteOrderBot ι] [Field K]
  [LinearOrder K] [IsStrictOrderedRing K]

/-- The positions at which the running sum has passed a bound. -/
def tail (w : ι → K) (q : K) : Finset ι := Finset.univ.filter fun j ↦ q < ∑ i ∈ Finset.Iic j, w i

variable {w : ι → K} {q : K}

theorem mem_tail_of_le (hw : ∀ i, 0 ≤ w i) {i j : ι} (hj : j ∈ tail w q) (hji : j ≤ i) :
    i ∈ tail w q := by
  have hsub : Finset.Iic j ⊆ Finset.Iic i := Finset.Iic_subset_Iic.mpr hji
  have hle := Finset.sum_le_sum_of_subset_of_nonneg hsub fun i _ _ ↦ hw i
  exact Finset.mem_filter.mpr ⟨Finset.mem_univ i, (Finset.mem_filter.mp hj).2.trans_le hle⟩

theorem sum_compl_tail_le (hw : ∀ i, 0 ≤ w i) (hq : 0 ≤ q) : ∑ i ∈ (tail w q)ᶜ, w i ≤ q := by
  rcases (tail w q)ᶜ.eq_empty_or_nonempty with hempty | hsome
  · rw [hempty, Finset.sum_empty]
    exact hq
  · have hmax := (tail w q)ᶜ.max'_mem hsome
    have hnot : ∑ i ∈ Finset.Iic ((tail w q)ᶜ.max' hsome), w i ≤ q := by
      simpa [tail] using hmax
    refine (Finset.sum_le_sum_of_subset_of_nonneg ?_ fun i _ _ ↦ hw i).trans hnot
    intro i hi
    exact Finset.mem_Iic.mpr (Finset.le_max' _ i hi)

/-- The first position past the bound, without which the rest does not reach from the
bound to the whole. -/
theorem exists_tail_min (hw : ∀ i, 0 ≤ w i) (hq : 0 ≤ q) (htotal : q < ∑ i, w i) :
    ∃ j ∈ tail w q, (∀ i ∈ tail w q, j ≤ i) ∧ 0 < w j ∧
      ∑ i ∈ (tail w q).erase j, w i < (∑ i, w i) - q := by
  have hsome : (tail w q).Nonempty := by
    rw [Finset.nonempty_iff_ne_empty]
    intro hempty
    have hall := sum_compl_tail_le hw hq
    rw [hempty, Finset.compl_empty] at hall
    exact absurd htotal (not_lt.mpr hall)
  have hmem := (tail w q).min'_mem hsome
  have hmin : ∀ i ∈ tail w q, (tail w q).min' hsome ≤ i := fun i hi ↦ Finset.min'_le _ i hi
  obtain ⟨j, hj⟩ : ∃ j, j = (tail w q).min' hsome := ⟨_, rfl⟩
  rw [← hj] at hmem hmin
  have hpass : q < ∑ i ∈ Finset.Iic j, w i := (Finset.mem_filter.mp hmem).2
  have hbefore : ∑ i ∈ (Finset.Iic j).erase j, w i ≤ q := by
    refine (Finset.sum_le_sum_of_subset_of_nonneg ?_ fun i _ _ ↦ hw i).trans
      (sum_compl_tail_le hw hq)
    intro i hi
    obtain ⟨hne, hle⟩ := Finset.mem_erase.mp hi
    refine Finset.mem_compl.mpr fun hi ↦ hne ?_
    exact le_antisymm (Finset.mem_Iic.mp hle) (hmin i hi)
  have hself : j ∈ Finset.Iic j := Finset.mem_Iic.mpr le_rfl
  refine ⟨j, hmem, hmin, ?_, ?_⟩
  · rw [← Finset.add_sum_erase _ _ hself] at hpass
    linarith
  · have hrest : (tail w q).erase j ⊆ (Finset.Iic j)ᶜ := by
      intro i hi
      obtain ⟨hne, hi⟩ := Finset.mem_erase.mp hi
      refine Finset.mem_compl.mpr fun hle ↦ hne ?_
      exact le_antisymm (Finset.mem_Iic.mp hle) (hmin i hi)
    have hle := Finset.sum_le_sum_of_subset_of_nonneg hrest fun i _ _ ↦ hw i
    have hsplit := Finset.sum_add_sum_compl (Finset.Iic j) w
    linarith

end Tails

end NemoRL.Foundations.Thresholds
