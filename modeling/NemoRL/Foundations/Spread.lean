import Mathlib

namespace NemoRL.Foundations.Spread

def Varied {α : Type*} (l : List α) : Prop := ∃ a ∈ l, ∃ b ∈ l, a ≠ b

instance {α : Type*} [DecidableEq α] (l : List α) : Decidable (Varied l) :=
  inferInstanceAs (Decidable (∃ a ∈ l, ∃ b ∈ l, a ≠ b))

variable {K : Type*} [Field K] [LinearOrder K] [IsStrictOrderedRing K] {l : List K}

theorem not_varied_iff {α : Type*} {l : List α} : ¬ Varied l ↔ ∀ a ∈ l, ∀ b ∈ l, a = b := by
  simp only [Varied, not_exists, not_and, not_not, ne_eq]

theorem sum_sq_sub (l : List K) (c : K) :
    (l.map fun x ↦ (x - c) ^ 2).sum =
      (l.map fun x ↦ x ^ 2).sum - 2 * c * l.sum + l.length * c ^ 2 := by
  induction l with
  | nil => simp
  | cons x l ih =>
    rw [List.map_cons, List.sum_cons, ih, List.map_cons, List.sum_cons, List.sum_cons,
      List.length_cons]
    push_cast
    ring

theorem sum_sq_eq_zero {f : K → K} (h : (l.map fun x ↦ f x ^ 2).sum = 0) : ∀ x ∈ l, f x = 0 := by
  induction l with
  | nil => exact nofun
  | cons x l ih =>
    rw [List.map_cons, List.sum_cons] at h
    have hrest : 0 ≤ (l.map fun x ↦ f x ^ 2).sum :=
      List.sum_nonneg fun y hy ↦ by
        obtain ⟨z, -, rfl⟩ := List.mem_map.mp hy
        exact sq_nonneg _
    have hx := sq_nonneg (f x)
    refine List.forall_mem_cons.mpr ⟨?_, ih (by linarith)⟩
    exact pow_eq_zero_iff two_ne_zero |>.mp (by linarith)

theorem meanSq_sub_sq_mean (hl : l ≠ []) :
    (l.map fun x ↦ x ^ 2).sum / l.length - (l.sum / l.length) ^ 2 =
      (l.map fun x ↦ (x - l.sum / l.length) ^ 2).sum / l.length := by
  have hpos : (l.length : K) ≠ 0 := by
    exact_mod_cast List.length_eq_zero_iff.not.mpr hl
  rw [sum_sq_sub]
  field_simp
  ring

/-- The mean of the squares exceeds the square of the mean exactly when two
values differ. -/
theorem meanSq_sub_sq_mean_eq_zero (hl : l ≠ []) :
    (l.map fun x ↦ x ^ 2).sum / l.length - (l.sum / l.length) ^ 2 = 0 ↔ ¬ Varied l := by
  have hpos : (l.length : K) ≠ 0 := by
    exact_mod_cast List.length_eq_zero_iff.not.mpr hl
  rw [meanSq_sub_sq_mean hl, div_eq_zero_iff, or_iff_left hpos, not_varied_iff]
  constructor
  · intro h a ha b hb
    have hdev := sum_sq_eq_zero (f := fun x ↦ x - l.sum / l.length) h
    linarith [hdev a ha, hdev b hb]
  · intro h
    obtain ⟨a, ha⟩ := List.exists_mem_of_ne_nil l hl
    have hall : ∀ x ∈ l, x = a := fun x hx ↦ h x hx a ha
    have hsum : l.sum = l.length * a := by
      rw [List.eq_replicate_of_mem hall]
      simp
    refine List.sum_eq_zero fun y hy ↦ ?_
    obtain ⟨x, hx, rfl⟩ := List.mem_map.mp hy
    rw [hall x hx, hsum, mul_div_cancel_left₀ _ hpos, sub_self]
    ring

omit [LinearOrder K] [IsStrictOrderedRing K] in
theorem sum_map_filter {α : Type*} (p : α → Prop) [DecidablePred p] (f : α → K) (l : List α) :
    ((l.filter p).map f).sum = (l.map fun a ↦ if p a then f a else 0).sum := by
  induction l with
  | nil => rfl
  | cons a l ih =>
    rw [List.filter_cons, List.map_cons, List.sum_cons, ← ih]
    by_cases h : p a
    · rw [if_pos (decide_eq_true h), if_pos h, List.map_cons, List.sum_cons]
    · rw [if_neg (by simpa using h), if_neg h, zero_add]

section Sets

variable {ι : Type*}

/-- The unbiased variance of some values. -/
def unbiasedVariance (s : Finset ι) (f : ι → K) : K :=
  (∑ i ∈ s, (f i - (∑ j ∈ s, f j) / s.card) ^ 2) / (s.card - 1)

omit [LinearOrder K] [IsStrictOrderedRing K] in
theorem sum_sub_mean_sq [CharZero K] {s : Finset ι} (hs : s.Nonempty) (f : ι → K) :
    ∑ i ∈ s, (f i - (∑ j ∈ s, f j) / s.card) ^ 2 =
      s.card * ((∑ i ∈ s, f i ^ 2) / s.card - ((∑ i ∈ s, f i) / s.card) ^ 2) := by
  have hcard : (s.card : K) ≠ 0 := Nat.cast_ne_zero.mpr (Finset.card_ne_zero.mpr hs)
  obtain ⟨mean, hmean⟩ : ∃ mean, mean = (∑ j ∈ s, f j) / s.card := ⟨_, rfl⟩
  have hsum : ∑ j ∈ s, f j = s.card * mean := by
    rw [hmean]
    field_simp
  rw [← hmean]
  have hterm : ∀ i ∈ s, (f i - mean) ^ 2 = f i ^ 2 - 2 * mean * f i + mean ^ 2 := fun i _ ↦ by ring
  rw [Finset.sum_congr rfl hterm, Finset.sum_add_distrib, Finset.sum_sub_distrib,
    ← Finset.mul_sum, hsum, Finset.sum_const, nsmul_eq_mul]
  field_simp
  ring

theorem moments_unbiased {s : Finset ι} (hs : s.Nonempty) (f : ι → K) :
    ((∑ i ∈ s, f i ^ 2) / s.card - ((∑ i ∈ s, f i) / s.card) ^ 2) * (s.card / (s.card - 1)) =
      unbiasedVariance s f := by
  rw [unbiasedVariance, sum_sub_mean_sq hs]
  ring

theorem unbiasedVariance_nonneg {s : Finset ι} (hs : s.Nonempty) (f : ι → K) :
    0 ≤ unbiasedVariance s f := by
  have hcard : (1 : K) ≤ s.card := by exact_mod_cast hs.card_pos
  exact div_nonneg (Finset.sum_nonneg fun i _ ↦ sq_nonneg _) (sub_nonneg.mpr hcard)

end Sets

end NemoRL.Foundations.Spread
