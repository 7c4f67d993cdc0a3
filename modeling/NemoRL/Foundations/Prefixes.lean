import Mathlib

namespace NemoRL.Foundations.Prefixes

variable {α : Type*} [DecidableEq α]

/-- The first position at which two words differ, or the length of the shorter one. -/
def firstDifference : List α → List α → ℕ
  | a :: as, b :: bs => if a = b then firstDifference as bs + 1 else 0
  | _, _ => 0

@[simp] theorem firstDifference_nil (b : List α) : firstDifference [] b = 0 := by
  cases b <;> rfl

theorem firstDifference_le_left (a b : List α) : firstDifference a b ≤ a.length := by
  induction a generalizing b with
  | nil => rw [firstDifference_nil, List.length_nil]
  | cons x a ih =>
    cases b with
    | nil => exact Nat.zero_le _
    | cons y b =>
      rw [firstDifference]
      split_ifs
      · exact Nat.succ_le_succ (ih b)
      · exact Nat.zero_le _

theorem firstDifference_le_right (a b : List α) : firstDifference a b ≤ b.length := by
  induction a generalizing b with
  | nil => rw [firstDifference_nil]; exact Nat.zero_le _
  | cons x a ih =>
    cases b with
    | nil => exact Nat.zero_le _
    | cons y b =>
      rw [firstDifference]
      split_ifs
      · exact Nat.succ_le_succ (ih b)
      · exact Nat.zero_le _

theorem firstDifference_eq_length {a b : List α} :
    firstDifference a b = a.length ↔ a <+: b := by
  induction a generalizing b with
  | nil => simp
  | cons x a ih =>
    cases b with
    | nil => simp [firstDifference]
    | cons y b =>
      rw [firstDifference, List.cons_prefix_cons, ← ih, List.length_cons]
      by_cases h : x = y
      · rw [if_pos h]
        simp [h]
      · rw [if_neg h]
        simp [h]

/-- What each word adds to the one before it, from where they differ. -/
def cuts : List α → List (List α) → List (List α)
  | _, [] => []
  | prev, r :: rs => r.drop (firstDifference prev r) :: cuts r rs

def surplus : List α → List (List α) → ℕ
  | _, [] => 0
  | prev, r :: rs => (prev.length - firstDifference prev r) + surplus r rs

variable {prev : List α} {rs : List (List α)}

theorem length_flatten_cuts (prev : List α) (rs : List (List α)) :
    prev.length + (cuts prev rs).flatten.length = (rs.getLastD prev).length + surplus prev rs := by
  induction rs generalizing prev with
  | nil => rfl
  | cons r rs ih =>
    have hle := firstDifference_le_left prev r
    have hle' := firstDifference_le_right prev r
    have hrest := ih r
    rw [cuts, surplus, List.flatten_cons, List.length_append, List.length_drop,
      List.getLastD_cons]
    omega

theorem surplus_eq_zero : surplus prev rs = 0 ↔ List.IsChain (· <+: ·) (prev :: rs) := by
  induction rs generalizing prev with
  | nil => simp [surplus]
  | cons r rs ih =>
    have hle := firstDifference_le_left prev r
    rw [surplus, List.isChain_cons_cons, ← ih, ← firstDifference_eq_length]
    omega

theorem append_flatten_cuts (h : List.IsChain (· <+: ·) (prev :: rs)) :
    prev ++ (cuts prev rs).flatten = rs.getLastD prev := by
  induction rs generalizing prev with
  | nil => exact List.append_nil prev
  | cons r rs ih =>
    obtain ⟨hbegins, hchain⟩ := List.isChain_cons_cons.mp h
    obtain ⟨added, rfl⟩ := hbegins
    rw [cuts, firstDifference_eq_length.mpr (List.prefix_append prev added), List.drop_left',
      List.flatten_cons, ← List.append_assoc, ih hchain, List.getLastD_cons]
    rfl

theorem prefix_getLastD (h : List.IsChain (· <+: ·) (prev :: rs)) : prev <+: rs.getLastD prev := by
  rw [← append_flatten_cuts h]
  exact List.prefix_append ..

theorem getLastD_cuts_suffix : (cuts prev rs).getLastD [] <:+ rs.getLastD prev := by
  induction rs generalizing prev with
  | nil => exact List.nil_suffix
  | cons r rs ih =>
    cases rs with
    | nil => exact List.drop_suffix ..
    | cons r' rs =>
      rw [cuts, cuts, List.getLastD_cons, List.getLastD_cons, List.getLastD_cons,
        List.getLastD_cons]
      have hrest := @ih r
      rwa [cuts, List.getLastD_cons, List.getLastD_cons] at hrest

end NemoRL.Foundations.Prefixes
