import Mathlib
import NemoRL.Foundations.Blocks

namespace NemoRL.Foundations

open Blocks

/-- A table by its rows, which all have one length. -/
@[ext] structure Grid (α : Type*) where
  cols : ℕ
  rows : List (List α)
  length_row : ∀ r ∈ rows, r.length = cols

namespace Grid

variable {α : Type*} {g : Grid α} {gs : List (Grid α)}

def shape (g : Grid α) : List ℕ := [g.rows.length, g.cols]

def uniform (rows cols : ℕ) (a : α) : Grid α where
  cols := cols
  rows := List.replicate rows (List.replicate cols a)
  length_row := by
    intro r hr
    rw [(List.mem_replicate.mp hr).2, List.length_replicate]

theorem shape_uniform (rows cols : ℕ) (a : α) : (uniform rows cols a).shape = [rows, cols] :=
  congrArg (fun n ↦ [n, cols]) (List.length_replicate ..)

def pick (g : Grid α) (rows : List (List α)) (h : rows ⊆ g.rows) : Grid α :=
  ⟨g.cols, rows, fun r hr ↦ g.length_row r (h hr)⟩

theorem block_subset (size : ℕ) (l : List α) (i : ℕ) : block size l i ⊆ l := by
  rw [block_eq]
  exact ((List.take_sublist ..).trans (List.drop_sublist ..)).subset

theorem length_block_eq (size : ℕ) (l : List α) (i : ℕ) :
    (block size l i).length = min size (l.length - i * size) := by
  rw [block_eq, List.length_take, List.length_drop]

def rowBlock (g : Grid α) (size i : ℕ) : Grid α := g.pick (block size g.rows i) (block_subset ..)

theorem slice_subset (l : List α) (start stop : ℕ) : slice l start stop ⊆ l :=
  ((List.take_sublist ..).trans (List.drop_sublist ..)).subset

def rowSlice (g : Grid α) (start stop : ℕ) : Grid α :=
  g.pick (slice g.rows start stop) (slice_subset ..)

def colBlock (g : Grid α) (size i : ℕ) : Grid α where
  cols := min size (g.cols - i * size)
  rows := g.rows.map (block size · i)
  length_row := by
    intro r hr
    obtain ⟨r, hmem, rfl⟩ := List.mem_map.mp hr
    rw [length_block_eq, g.length_row r hmem]

/-- Grids of one width, one below the other. -/
def catRows (cols : ℕ) (gs : List (Grid α)) (h : ∀ g ∈ gs, g.cols = cols) : Grid α where
  cols := cols
  rows := gs.flatMap Grid.rows
  length_row := by
    intro r hr
    obtain ⟨g, hg, hmem⟩ := List.mem_flatMap.mp hr
    rw [g.length_row r hmem, h g hg]

/-- Grids of one height, side by side. -/
def catCols (height : ℕ) (gs : List (Grid α)) (h : ∀ g ∈ gs, g.rows.length = height) : Grid α where
  cols := (gs.map Grid.cols).sum
  rows := (List.range height).map fun i ↦ gs.flatMap fun g ↦ g.rows.getD i []
  length_row := by
    intro r hr
    obtain ⟨i, hi, rfl⟩ := List.mem_map.mp hr
    rw [List.length_flatMap]
    congr 1
    refine List.map_congr_left fun g hg ↦ g.length_row _ ?_
    have hlt : i < g.rows.length := by
      rw [h g hg]
      exact List.mem_range.mp hi
    rw [List.getD_eq_getElem _ _ hlt]
    exact List.getElem_mem hlt

theorem catRows_rowBlock {n c : ℕ} (hrows : g.rows.length = n * c)
    (h : ∀ b ∈ (List.range n).map (g.rowBlock c), b.cols = g.cols) :
    catRows g.cols ((List.range n).map (g.rowBlock c)) h = g := by
  refine Grid.ext rfl ?_
  show ((List.range n).map (g.rowBlock c)).flatMap Grid.rows = g.rows
  rw [List.flatMap_map]
  exact flatMap_block hrows

theorem catCols_colBlock {n c : ℕ} (hcols : g.cols = n * c)
    (h : ∀ b ∈ (List.range n).map (g.colBlock c), b.rows.length = g.rows.length) :
    catCols g.rows.length ((List.range n).map (g.colBlock c)) h = g := by
  refine Grid.ext ?_ ?_
  · show (((List.range n).map (g.colBlock c)).map Grid.cols).sum = g.cols
    rw [List.map_map]
    have hblock : ∀ i ∈ List.range n, (Grid.cols ∘ g.colBlock c) i = c := by
      intro i hi
      have hle : (i + 1) * c ≤ n * c := Nat.mul_le_mul_right c (List.mem_range.mp hi)
      rw [Nat.succ_mul] at hle
      show min c (g.cols - i * c) = c
      omega
    rw [List.map_congr_left hblock, hcols]
    simp
  · apply List.ext_getElem
    · show ((List.range g.rows.length).map _).length = g.rows.length
      rw [List.length_map, List.length_range]
    · intro i hi hi'
      have hrow : (g.rows[i]).length = n * c := by
        rw [g.length_row _ (List.getElem_mem hi'), hcols]
      simp only [catCols, List.getElem_map, List.getElem_range, List.flatMap_map]
      refine (List.flatMap_congr fun j _ ↦ ?_).trans (flatMap_block hrow)
      rw [colBlock, List.getD_eq_getElem _ _ (by rwa [List.length_map]), List.getElem_map]

/-- Concatenation along the rows, of at least one grid. -/
def vcat : List (Grid α) → Option (Grid α)
  | [] => none
  | g :: gs =>
    if h : ∀ x ∈ g :: gs, x.cols = g.cols then some (catRows g.cols (g :: gs) h) else none

/-- Concatenation along the columns, of at least one grid. -/
def hcat : List (Grid α) → Option (Grid α)
  | [] => none
  | g :: gs =>
    if h : ∀ x ∈ g :: gs, x.rows.length = g.rows.length then
      some (catCols g.rows.length (g :: gs) h)
    else none

theorem vcat_eq_some {cols : ℕ} (hne : gs ≠ []) (h : ∀ x ∈ gs, x.cols = cols) :
    vcat gs = some (catRows cols gs h) := by
  cases gs with
  | nil => exact absurd rfl hne
  | cons g gs =>
    obtain rfl := h g (List.mem_cons_self ..)
    exact dif_pos h

theorem hcat_eq_some {height : ℕ} (hne : gs ≠ []) (h : ∀ x ∈ gs, x.rows.length = height) :
    hcat gs = some (catCols height gs h) := by
  cases gs with
  | nil => exact absurd rfl hne
  | cons g gs =>
    obtain rfl := h g (List.mem_cons_self ..)
    exact dif_pos h

theorem map_range_ne_nil {β : Type*} {n : ℕ} (hn : 0 < n) (f : ℕ → β) : (List.range n).map f ≠ [] := by
  rw [ne_eq, List.map_eq_nil_iff, List.range_eq_nil]
  omega

theorem vcat_rowBlock {n c : ℕ} (hn : 0 < n) (hrows : g.rows.length = n * c) :
    vcat ((List.range n).map (g.rowBlock c)) = some g := by
  have h : ∀ b ∈ (List.range n).map (g.rowBlock c), b.cols = g.cols := by
    intro b hb
    obtain ⟨i, -, rfl⟩ := List.mem_map.mp hb
    rfl
  rw [vcat_eq_some (map_range_ne_nil hn _) h, catRows_rowBlock hrows]

theorem hcat_colBlock {n c : ℕ} (hn : 0 < n) (hcols : g.cols = n * c) :
    hcat ((List.range n).map (g.colBlock c)) = some g := by
  have h : ∀ b ∈ (List.range n).map (g.colBlock c), b.rows.length = g.rows.length := by
    intro b hb
    obtain ⟨i, -, rfl⟩ := List.mem_map.mp hb
    exact List.length_map ..
  rw [hcat_eq_some (map_range_ne_nil hn _) h, catCols_colBlock hcols]

theorem rowBlock_self {c : ℕ} (hrows : g.rows.length = c) : g.rowBlock c 0 = g := by
  refine Grid.ext rfl ?_
  show block c g.rows 0 = g.rows
  rw [block_eq, Nat.zero_mul, List.drop_zero, List.take_of_length_le hrows.le]

theorem colBlock_self {c : ℕ} (hcols : g.cols = c) : g.colBlock c 0 = g := by
  refine Grid.ext ?_ ?_
  · show min c (g.cols - 0 * c) = g.cols
    rw [Nat.zero_mul, Nat.sub_zero, hcols, Nat.min_self]
  · refine (List.map_congr_left fun row hrow ↦ ?_).trans (List.map_id _)
    rw [block_eq, Nat.zero_mul, List.drop_zero, List.take_of_length_le]
    · rfl
    · rw [g.length_row row hrow, hcols]

theorem rows_length_rowBlock {n c i : ℕ} (hrows : g.rows.length = n * c) (hi : i < n) :
    (g.rowBlock c i).rows.length = c := by
  refine length_block ?_
  rw [hrows]
  exact Nat.mul_le_mul_right c hi

theorem cols_colBlock {n c i : ℕ} (hcols : g.cols = n * c) (hi : i < n) :
    (g.colBlock c i).cols = c := by
  have hle : (i + 1) * c ≤ n * c := Nat.mul_le_mul_right c hi
  rw [Nat.succ_mul] at hle
  show min c (g.cols - i * c) = c
  omega

end Grid

end NemoRL.Foundations
