import Mathlib

/-! Passes from the end of a list, which leave a state at each element, and lists that grow by
what is read off them. -/

namespace NemoRL.Foundations.Recurrences

variable {α σ : Type*} (step masked : α → σ → σ) (init : σ)

/-- The states of a pass from the end: at an element, what `step` makes of the
element and of the state after it. -/
def backward : List α → List σ
  | [] => []
  | a :: l => step a (l.foldr step init) :: backward l

@[simp]
theorem backward_nil : backward step init [] = [] := rfl

@[simp]
theorem backward_cons (a : α) (l : List α) :
    backward step init (a :: l) = step a (l.foldr step init) :: backward step init l := rfl

@[simp]
theorem length_backward (l : List α) : (backward step init l).length = l.length := by
  induction l with
  | nil => rfl
  | cons a l ih => rw [backward_cons, List.length_cons, ih, List.length_cons]

theorem backward_map {β : Type*} (f : β → α) (l : List β) :
    backward step init (l.map f) = backward (fun b ↦ step (f b)) init l := by
  induction l with
  | nil => rfl
  | cons b l ih => rw [List.map_cons, backward_cons, backward_cons, ih, List.foldr_map]

/-- A loop over the reversed list that appends what it reads of each new state has
the states of the pass in reverse. -/
theorem foldl_reverse_collect {β : Type*} (read : σ → β) (l : List α) :
    l.reverse.foldl (fun s a ↦ (step a s.1, s.2 ++ [read (step a s.1)])) (init, []) =
      (l.foldr step init, ((backward step init l).map read).reverse) := by
  induction l with
  | nil => rfl
  | cons a l ih =>
    rw [List.reverse_cons, List.foldl_append, ih, backward_cons, List.map_cons, List.reverse_cons]
    rfl

section Masked

variable {step masked} {keep : α → Bool} (hkeep : ∀ a s, keep a = true → masked a s = step a s)
  (hskip : ∀ a s, keep a = false → masked a s = s)

include hkeep hskip

theorem foldr_masked (l : List α) : l.foldr masked init = (l.filter keep).foldr step init := by
  induction l with
  | nil => rfl
  | cons a l ih =>
    rw [List.foldr_cons, ih]
    cases h : keep a with
    | true => rw [List.filter_cons_of_pos h, hkeep a _ h, List.foldr_cons]
    | false => rw [List.filter_cons_of_neg (by simp [h]), hskip a _ h]

theorem backward_masked (l : List α) :
    ((l.zip (backward masked init l)).filter fun p ↦ keep p.1).map Prod.snd =
      backward step init (l.filter keep) := by
  induction l with
  | nil => rfl
  | cons a l ih =>
    rw [backward_cons, List.zip_cons_cons, List.filter_cons, List.filter_cons]
    cases h : keep a with
    | true =>
      rw [if_pos rfl, if_pos rfl, List.map_cons, ih, backward_cons, hkeep a _ h,
        foldr_masked init hkeep hskip l]
    | false => exact ih

end Masked

theorem map_getD_filter_range (keep : ℕ → Bool) (out : List σ) (d : σ) :
    ((List.range out.length).filter keep).map (fun t ↦ out.getD t d) =
      (((List.range out.length).zip out).filter fun p ↦ keep p.1).map Prod.snd := by
  have hzip : (List.range out.length).zip out =
      (List.range out.length).map fun t ↦ (t, out.getD t d) := by
    refine List.ext_getElem (by simp) fun t ht ht' ↦ ?_
    have hlt : t < out.length := by simpa using ht'
    rw [List.getElem_zip, List.getElem_map, List.getElem_range, List.getD_eq_getElem out d hlt]
  rw [hzip, List.filter_map, List.map_map]
  rfl

section Growth

variable {α : Type} {f : List α → ℕ → α} {c : α}

def grow (f : List α → ℕ → α) (c : α) (n : ℕ) : List α :=
  (List.range n).foldl (fun l k ↦ l ++ [f l k]) [c]

theorem grow_succ (n : ℕ) : grow f c (n + 1) = grow f c n ++ [f (grow f c n) n] := by
  rw [grow, List.range_succ, List.foldl_append]
  rfl

theorem length_grow (n : ℕ) : (grow f c n).length = n + 1 := by
  induction n with
  | zero => rfl
  | succ n ih => rw [grow_succ, List.length_append, ih, List.length_singleton]

theorem getElem?_grow_of_le {m n k : ℕ} (hmn : m ≤ n) (hk : k ≤ m) :
    (grow f c n)[k]? = (grow f c m)[k]? := by
  induction n, hmn using Nat.le_induction with
  | base => rfl
  | succ n hmn ih =>
    rw [grow_succ, List.getElem?_append_left (by rw [length_grow]; omega), ih]

theorem getElem?_grow_succ {n k : ℕ} (hk : k < n) :
    (grow f c n)[k + 1]? = some (f (grow f c k) k) := by
  rw [getElem?_grow_of_le hk le_rfl, grow_succ, List.getElem?_append_right (by rw [length_grow]),
    length_grow, Nat.sub_self]
  rfl

theorem getElem?_grow_zero (n : ℕ) : (grow f c n)[0]? = some c :=
  getElem?_grow_of_le (Nat.zero_le n) le_rfl

theorem getD_grow_of_le {d : α} {m n k : ℕ} (hmn : m ≤ n) (hk : k ≤ m) :
    (grow f c m).getD k d = (grow f c n).getD k d := by
  rw [List.getD_eq_getElem?_getD, List.getD_eq_getElem?_getD, getElem?_grow_of_le hmn hk]

/-- What holds of the first entry and of every later one at its place. -/
theorem grow_induct {P : ℕ → α → Prop} (hc : P 0 c) (hf : ∀ l k, P (k + 1) (f l k)) (n : ℕ) :
    ∀ k ≤ n, ∃ x, (grow f c n)[k]? = some x ∧ P k x := by
  intro k hk
  cases k with
  | zero => exact ⟨c, getElem?_grow_zero n, hc⟩
  | succ k => exact ⟨_, getElem?_grow_succ hk, hf _ k⟩

end Growth

end NemoRL.Foundations.Recurrences
