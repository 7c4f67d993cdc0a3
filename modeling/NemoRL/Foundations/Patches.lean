import Mathlib

/-! Lists that are changed at some of their positions. -/

namespace NemoRL.Foundations.Patches

variable {α : Type*}

/-- The list with the given values written at the given positions. -/
def scatter (l : List α) (writes : List (ℕ × α)) : List α :=
  writes.foldl (fun l w ↦ l.set w.1 w.2) l

/-- The list with the given values in the place of as many of its own. -/
def splice (l : List α) (start : ℕ) (values : List α) : List α :=
  l.take start ++ values ++ l.drop (start + values.length)

def changed [DecidableEq α] (l l' : List α) : List ℕ :=
  (List.range l'.length).filter fun i ↦ l[i]? ≠ l'[i]?

theorem getElem?_scatter (f : ℕ → α) (locations : List ℕ) (l : List α) (j : ℕ) :
    (scatter l (locations.map fun i ↦ (i, f i)))[j]? =
      if j ∈ locations then l[j]?.map fun _ ↦ f j else l[j]? := by
  induction locations generalizing l with
  | nil => rfl
  | cons i locations ih =>
    have hstep : scatter l ((i :: locations).map fun i ↦ (i, f i)) =
        scatter (l.set i (f i)) (locations.map fun i ↦ (i, f i)) := rfl
    rw [hstep, ih, List.getElem?_set]
    by_cases hij : i = j
    · subst hij
      by_cases hi : i < l.length
      · simp [hi]
      · simp [hi]
    · by_cases hj : j ∈ locations <;> simp [hij, hj, Ne.symm hij]

theorem scatter_range' (f : ℕ → α) {l : List α} {start n : ℕ} (h : start + n ≤ l.length) :
    scatter l ((List.range' start n).map fun i ↦ (i, f i)) =
      splice l start ((List.range' start n).map f) := by
  refine List.ext_getElem? fun j ↦ ?_
  rw [getElem?_scatter]
  have hlen : (l.take start).length = start := by
    rw [List.length_take]
    omega
  unfold splice
  rw [List.append_assoc]
  rcases Nat.lt_or_ge j start with hlt | hge
  · rw [List.getElem?_append_left (by omega), List.getElem?_take_of_lt hlt, if_neg]
    rw [List.mem_range'_1]
    omega
  · rw [List.getElem?_append_right (by omega), hlen]
    by_cases hj : j < start + n
    · rw [List.getElem?_append_left (by simp; omega), if_pos (List.mem_range'_1.mpr ⟨hge, hj⟩),
        List.getElem?_map, List.getElem?_range' (by omega),
        List.getElem?_eq_getElem (by omega : j < l.length)]
      simp [Nat.add_sub_cancel' hge]
    · rw [List.getElem?_append_right (by simp; omega), if_neg, List.getElem?_drop]
      · simp only [List.length_map, List.length_range']
        congr 1
        omega
      · rw [List.mem_range'_1]
        omega

section Changed

variable [DecidableEq α] {l l' : List α} {i : ℕ}

theorem mem_changed : i ∈ changed l l' ↔ i < l'.length ∧ l[i]? ≠ l'[i]? := by
  simp [changed]

theorem pairwise_changed (l l' : List α) : (changed l l').Pairwise (· < ·) :=
  List.pairwise_lt_range.filter _

theorem changed_eq_nil (hlen : l.length = l'.length) : changed l l' = [] ↔ l = l' := by
  constructor
  · intro h
    refine List.ext_getElem? fun i ↦ ?_
    by_contra hne
    have hi : i < l'.length := by
      by_contra hge
      rw [List.getElem?_eq_none (by omega), List.getElem?_eq_none (by omega)] at hne
      exact hne rfl
    have hm : i ∈ changed l l' := mem_changed.mpr ⟨hi, hne⟩
    rw [h] at hm
    cases hm
  · rintro rfl
    simp [changed]

end Changed

end NemoRL.Foundations.Patches
