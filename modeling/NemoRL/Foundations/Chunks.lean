import Mathlib

namespace NemoRL.Foundations.Chunks

variable {α β : Type*}

/-- The entries up to the first that takes the total over the target, what is left,
and whether the list ended before. -/
def fill (size : α → ℕ) (target : ℤ) : ℕ → List α → List α × List α × Bool
  | _, [] => ([], [], true)
  | total, a :: l =>
    if ((total + size a : ℕ) : ℤ) > target then ([a], l, false)
    else
      let filled := fill size target (total + size a) l
      (a :: filled.1, filled.2)

section Fill

variable {size : α → ℕ} {target : ℤ}

theorem fill_append (total : ℕ) (l : List α) :
    (fill size target total l).1 ++ (fill size target total l).2.1 = l := by
  induction l generalizing total with
  | nil => rfl
  | cons a l ih =>
    rw [fill]
    split_ifs with h
    · rfl
    · rw [List.cons_append, ih]

theorem fill_ended {total : ℕ} {l : List α} (h : (fill size target total l).2.2 = true) :
    (fill size target total l).1 = l := by
  induction l generalizing total with
  | nil => rfl
  | cons a l ih =>
    rw [fill] at h ⊢
    by_cases hover : ((total + size a : ℕ) : ℤ) > target
    · rw [if_pos hover] at h
      cases h
    · rw [if_neg hover] at h ⊢
      exact congrArg (List.cons a) (ih h)

theorem fill_ne_nil {total : ℕ} {l : List α} (h : (fill size target total l).2.2 = false) :
    (fill size target total l).1 ≠ [] := by
  cases l with
  | nil => cases h
  | cons a l =>
    rw [fill]
    split_ifs <;> simp

theorem length_rest_lt {total : ℕ} {l : List α} (h : (fill size target total l).2.2 = false) :
    (fill size target total l).2.1.length < l.length := by
  have happend : (fill size target total l).1 ++ (fill size target total l).2.1 = l :=
    fill_append total l
  have hsplit := congrArg List.length happend
  have hpos := List.length_pos_iff.mpr (fill_ne_nil h)
  rw [List.length_append] at hsplit
  omega

theorem fill_map {size' : β → ℕ} (f : α → β) (hsize : ∀ a, size' (f a) = size a) (total : ℕ)
    (l : List α) : fill size' target total (l.map f) =
      ((fill size target total l).1.map f, (fill size target total l).2.1.map f,
        (fill size target total l).2.2) := by
  induction l generalizing total with
  | nil => rfl
  | cons a l ih =>
    rw [List.map_cons, fill, fill, hsize]
    split_ifs with h
    · rfl
    · rw [ih]
      rfl

end Fill

/-- A list cut after every entry that takes the total of its chunk over the target. -/
def chunks (size : α → ℕ) (target : ℤ) (l : List α) : List (List α) :=
  match _ : (fill size target 0 l).2.2 with
  | true => if (fill size target 0 l).1 = [] then [] else [(fill size target 0 l).1]
  | false => (fill size target 0 l).1 :: chunks size target (fill size target 0 l).2.1
termination_by l.length
decreasing_by exact length_rest_lt ‹_›

section Chunks

variable {size : α → ℕ} {target : ℤ}

theorem chunks_of_ended {l : List α} (h : (fill size target 0 l).2.2 = true) :
    chunks size target l = if l = [] then [] else [l] := by
  rw [chunks]
  split
  · rw [fill_ended h]
  · rename_i hfull
    rw [h] at hfull
    cases hfull

theorem chunks_of_full {l : List α} (h : (fill size target 0 l).2.2 = false) :
    chunks size target l =
      (fill size target 0 l).1 :: chunks size target (fill size target 0 l).2.1 := by
  rw [chunks]
  split
  · rename_i hended
    rw [h] at hended
    cases hended
  · rfl

theorem flatten_chunks (size : α → ℕ) (target : ℤ) (l : List α) :
    (chunks size target l).flatten = l := by
  induction hn : l.length using Nat.strong_induction_on generalizing l with
  | _ n ih =>
    cases h : (fill size target 0 l).2.2 with
    | true =>
      rw [chunks_of_ended h]
      split_ifs with hnil
      · rw [hnil, List.flatten_nil]
      · rw [List.flatten_singleton]
    | false =>
      have hshort := length_rest_lt h
      rw [chunks_of_full h, List.flatten_cons, ih _ (hn ▸ hshort) _ rfl, fill_append]

end Chunks

end NemoRL.Foundations.Chunks
