import Mathlib

namespace NemoRL.Foundations

/-- The cells of a buffer by their position. -/
def Buffer (α : Type*) := ℕ → α

namespace Buffer

variable {α : Type*}

/-- Copy a list to the cells from a position on. -/
def write (b : Buffer α) (offset : ℕ) (data : List α) : Buffer α := fun p ↦
  if offset ≤ p then data.getD (p - offset) (b p) else b p

def slice (b : Buffer α) (offset size : ℕ) : List α := (List.range size).map fun i ↦ b (offset + i)

@[simp] theorem length_slice (b : Buffer α) (offset size : ℕ) : (b.slice offset size).length = size := by
  rw [slice, List.length_map, List.length_range]

theorem write_outside {b : Buffer α} {offset : ℕ} {data : List α} {p : ℕ}
    (h : p < offset ∨ offset + data.length ≤ p) : b.write offset data p = b p := by
  rw [write]
  split_ifs with ho
  · rw [List.getD_eq_default]
    omega
  · rfl

theorem write_inside {b : Buffer α} {offset : ℕ} {data : List α} {i : ℕ} (h : i < data.length) :
    b.write offset data (offset + i) = data[i] := by
  rw [write, if_pos (Nat.le_add_right _ _), Nat.add_sub_cancel_left, List.getD_eq_getElem _ _ h]

theorem slice_congr {b c : Buffer α} {offset size : ℕ}
    (h : ∀ p, offset ≤ p → p < offset + size → b p = c p) :
    b.slice offset size = c.slice offset size := by
  apply List.map_congr_left
  intro i hi
  exact h _ (Nat.le_add_right _ _) (Nat.add_lt_add_left (List.mem_range.mp hi) _)

theorem slice_append (b : Buffer α) (offset size more : ℕ) :
    b.slice offset (size + more) = b.slice offset size ++ b.slice (offset + size) more := by
  simp only [slice, List.range_add, List.map_append, List.map_map]
  congr 1
  exact List.map_congr_left fun i _ ↦ congrArg b (Nat.add_assoc _ _ _).symm

theorem slice_write (b : Buffer α) (offset : ℕ) (data : List α) :
    (b.write offset data).slice offset data.length = data := by
  apply List.ext_getElem
  · rw [length_slice]
  · intro i hi hdata
    simp only [slice, List.getElem_map, List.getElem_range]
    exact write_inside hdata

theorem slice_write_of_disjoint (b : Buffer α) {offset size start : ℕ} {data : List α}
    (h : offset + size ≤ start ∨ start + data.length ≤ offset) :
    (b.write start data).slice offset size = b.slice offset size :=
  slice_congr fun _ hlo hhi ↦ write_outside (by omega)

end Buffer

end NemoRL.Foundations
