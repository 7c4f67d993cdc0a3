import Mathlib

namespace NemoRL.Foundations.RowMajor

/-- The position of an index in memory, the last dimension running fastest. -/
def ravel : List ℕ → List ℕ → ℕ
  | _ :: shape, i :: index => i * shape.prod + ravel shape index
  | _, _ => 0

def unravel : List ℕ → ℕ → List ℕ
  | [], _ => []
  | size :: shape, k => k / shape.prod % size :: unravel shape k

theorem ravel_lt {shape index : List ℕ} (h : List.Forall₂ (· < ·) index shape) :
    ravel shape index < shape.prod := by
  induction h with
  | nil => simp [ravel]
  | cons h _ ih =>
    rw [ravel, List.prod_cons]
    calc _ < _ * _ + _ := Nat.add_lt_add_left ih _
      _ = (_ + 1) * _ := (Nat.succ_mul _ _).symm
      _ ≤ _ := Nat.mul_le_mul_right _ h

theorem unravel_add_mul (shape : List ℕ) (k n : ℕ) (hpos : ∀ size ∈ shape, 0 < size) :
    unravel shape (k * shape.prod + n) = unravel shape n := by
  induction shape generalizing k with
  | nil => rfl
  | cons size shape ih =>
    obtain ⟨hsize, hrest⟩ := List.forall_mem_cons.mp hpos
    have hprod : 0 < shape.prod := List.prod_pos hrest
    have hmul : k * (size * shape.prod) + n = (k * size) * shape.prod + n := by
      rw [Nat.mul_assoc]
    simp only [unravel, List.prod_cons, List.cons.injEq]
    rw [hmul]
    refine ⟨?_, ih (k * size) hrest⟩
    rw [Nat.add_comm, Nat.add_mul_div_right _ _ hprod, Nat.add_mul_mod_self_right]

theorem pos_of_lt_prod {shape : List ℕ} {k : ℕ} (h : k < shape.prod) : ∀ size ∈ shape, 0 < size := by
  intro size hsize
  by_contra hzero
  have hprod : shape.prod = 0 := List.prod_eq_zero (by
    obtain rfl : size = 0 := by omega
    exact hsize)
  omega

theorem unravel_ravel {shape index : List ℕ} (h : List.Forall₂ (· < ·) index shape) :
    unravel shape (ravel shape index) = index := by
  induction h with
  | nil => rfl
  | @cons i size index shape h hrest ih =>
    have hlt := ravel_lt hrest
    rw [ravel, unravel, unravel_add_mul shape i _ (pos_of_lt_prod hlt), ih]
    have hdiv : (i * shape.prod + ravel shape index) / shape.prod = i := by
      rw [Nat.add_comm, Nat.add_mul_div_right _ _ (by omega), Nat.div_eq_of_lt hlt, Nat.zero_add]
    rw [hdiv, Nat.mod_eq_of_lt h]

theorem unravel_lt {shape : List ℕ} (hpos : ∀ size ∈ shape, 0 < size) (k : ℕ) :
    List.Forall₂ (· < ·) (unravel shape k) shape := by
  induction shape with
  | nil => exact .nil
  | cons size shape ih =>
    obtain ⟨hsize, hrest⟩ := List.forall_mem_cons.mp hpos
    exact .cons (Nat.mod_lt _ hsize) (ih hrest)

theorem unravel_mod {shape : List ℕ} (hpos : ∀ size ∈ shape, 0 < size) (k : ℕ) :
    unravel shape (k % shape.prod) = unravel shape k := by
  conv_rhs => rw [← Nat.div_add_mod k shape.prod, Nat.mul_comm]
  exact (unravel_add_mul shape _ _ hpos).symm

theorem ravel_unravel {shape : List ℕ} {k : ℕ} (h : k < shape.prod) :
    ravel shape (unravel shape k) = k := by
  induction shape generalizing k with
  | nil =>
    rw [List.prod_nil] at h
    exact (Nat.lt_one_iff.mp h).symm
  | cons size shape ih =>
    obtain ⟨-, hrest⟩ := List.forall_mem_cons.mp (pos_of_lt_prod h)
    have hprod : 0 < shape.prod := List.prod_pos hrest
    have hfirst : k / shape.prod < size := by
      rw [List.prod_cons] at h
      exact (Nat.div_lt_iff_lt_mul hprod).mpr h
    rw [unravel, ravel, Nat.mod_eq_of_lt hfirst, ← unravel_mod hrest, ih (Nat.mod_lt _ hprod),
      Nat.mul_comm]
    exact Nat.div_add_mod k shape.prod

/-- Positions in memory are in the lexicographic order of their indices. -/
theorem unravel_lt_unravel {shape : List ℕ} {k k' : ℕ} (hlt : k < k') (h : k' < shape.prod) :
    List.Lex (· < ·) (unravel shape k) (unravel shape k') := by
  induction shape generalizing k k' with
  | nil =>
    rw [List.prod_nil] at h
    omega
  | cons size shape ih =>
    obtain ⟨-, hrest⟩ := List.forall_mem_cons.mp (pos_of_lt_prod h)
    have hprod : 0 < shape.prod := List.prod_pos hrest
    rw [List.prod_cons] at h
    have hfirst' : k' / shape.prod < size := (Nat.div_lt_iff_lt_mul hprod).mpr h
    have hfirst : k / shape.prod < size := (Nat.div_le_div_right hlt.le).trans_lt hfirst'
    rw [unravel, unravel, Nat.mod_eq_of_lt hfirst, Nat.mod_eq_of_lt hfirst']
    rcases (Nat.div_le_div_right hlt.le : k / shape.prod ≤ k' / shape.prod).lt_or_eq with hrow | hrow
    · exact .rel hrow
    · rw [hrow, ← unravel_mod hrest k, ← unravel_mod hrest k']
      refine .cons (ih ?_ (Nat.mod_lt _ hprod))
      have hk := Nat.div_add_mod k shape.prod
      have hk' := Nat.div_add_mod k' shape.prod
      rw [hrow] at hk
      omega

end NemoRL.Foundations.RowMajor
