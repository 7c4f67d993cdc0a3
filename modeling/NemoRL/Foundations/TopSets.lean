import Mathlib

namespace NemoRL.Foundations.TopSets

variable {α β ι : Type*} [LinearOrder β]

/-- `k` entries of a finite set, or all of it, with no entry left out that is larger. -/
structure IsTop (f : α → β) (k : ℕ) (t s : Finset α) : Prop where
  subset : s ⊆ t
  card_eq : s.card = min k t.card
  le_of_not_mem : ∀ x ∈ s, ∀ y ∈ t, y ∉ s → f y ≤ f x

namespace IsTop

variable {f : α → β} {k : ℕ} {t s : Finset α}

theorem eq_of_card_le (h : IsTop f k t s) (hle : t.card ≤ k) : s = t := by
  apply Finset.eq_of_subset_of_card_le h.subset
  rw [h.card_eq, Nat.min_eq_right hle]

theorem congr {g : α → β} (h : IsTop f k t s) (heq : ∀ x ∈ t, f x = g x) : IsTop g k t s := by
  refine ⟨h.subset, h.card_eq, fun x hx y hy hnot ↦ ?_⟩
  rw [← heq x (h.subset hx), ← heq y hy]
  exact h.le_of_not_mem x hx y hy hnot

theorem of_min {m : ℕ} (h : IsTop f (min k m) t s) (hm : t.card ≤ m) : IsTop f k t s := by
  refine ⟨h.subset, ?_, h.le_of_not_mem⟩
  rw [h.card_eq, Nat.min_assoc, Nat.min_eq_right hm]

theorem card_of_not_mem (h : IsTop f k t s) {y : α} (hy : y ∈ t) (hnot : y ∉ s) :
    s.card = k := by
  rw [h.card_eq, Nat.min_eq_left]
  by_contra hlt
  exact hnot (h.eq_of_card_le (Nat.le_of_not_le hlt) ▸ hy)

variable [DecidableEq α] {parts : Finset ι} {whole best : ι → Finset α}

theorem min_card_biUnion (h : ∀ i ∈ parts, IsTop f k (whole i) (best i)) :
    min k (parts.biUnion best).card = min k (parts.biUnion whole).card := by
  have hsub : parts.biUnion best ⊆ parts.biUnion whole :=
    Finset.biUnion_mono fun i hi ↦ (h i hi).subset
  by_cases hsmall : ∀ i ∈ parts, (whole i).card ≤ k
  · rw [Finset.biUnion_congr rfl fun i hi ↦ (h i hi).eq_of_card_le (hsmall i hi)]
  · push Not at hsmall
    obtain ⟨i, hi, hlt⟩ := hsmall
    have hbest : k ≤ (parts.biUnion best).card := by
      calc k = (best i).card := by rw [(h i hi).card_eq, Nat.min_eq_left hlt.le]
        _ ≤ (parts.biUnion best).card :=
          Finset.card_le_card (Finset.subset_biUnion_of_mem best hi)
    rw [Nat.min_eq_left hbest, Nat.min_eq_left (hbest.trans (Finset.card_le_card hsub))]

/-- The top of the tops of the parts is the top of the whole. -/
theorem biUnion (h : ∀ i ∈ parts, IsTop f k (whole i) (best i))
    (htop : IsTop f k (parts.biUnion best) s) : IsTop f k (parts.biUnion whole) s := by
  refine ⟨?_, ?_, ?_⟩
  · exact htop.subset.trans (Finset.biUnion_mono fun i hi ↦ (h i hi).subset)
  · rw [htop.card_eq, min_card_biUnion h]
  · intro x hx y hy hnot
    obtain ⟨i, hi, hyi⟩ := Finset.mem_biUnion.mp hy
    by_cases hbest : y ∈ best i
    · exact htop.le_of_not_mem x hx y (Finset.mem_biUnion.mpr ⟨i, hi, hbest⟩) hnot
    · have hlarger := (h i hi).le_of_not_mem
      have hcard := (h i hi).card_of_not_mem hyi hbest
      -- Either some entry of this part is left out too, or this part is all there is.
      by_cases hall : best i ⊆ s
      · have heq : best i = s := by
          apply Finset.eq_of_subset_of_card_le hall
          rw [hcard, htop.card_eq]
          exact Nat.min_le_left _ _
        exact hlarger x (heq ▸ hx) y hyi hbest
      · obtain ⟨z, hz, hzs⟩ := Finset.not_subset.mp hall
        calc f y ≤ f z := hlarger z hz y hyi hbest
          _ ≤ f x := htop.le_of_not_mem x hx z (Finset.mem_biUnion.mpr ⟨i, hi, hz⟩) hzs

theorem image {γ : Type*} [DecidableEq γ] {g : γ → α} {t s : Finset γ}
    (hg : Set.InjOn g t) (h : IsTop (f ∘ g) k t s) : IsTop f k (t.image g) (s.image g) := by
  refine ⟨Finset.image_subset_image h.subset, ?_, ?_⟩
  · rw [Finset.card_image_of_injOn (hg.mono (Finset.coe_subset.mpr h.subset)),
      Finset.card_image_of_injOn hg, h.card_eq]
  · intro x hx y hy hnot
    obtain ⟨a, ha, rfl⟩ := Finset.mem_image.mp hx
    obtain ⟨b, hb, rfl⟩ := Finset.mem_image.mp hy
    exact h.le_of_not_mem a ha b hb fun hbs ↦ hnot (Finset.mem_image_of_mem g hbs)

end IsTop

end NemoRL.Foundations.TopSets
