import Mathlib
import NemoRL.Foundations.Ragged

namespace NemoRL.Foundations.Interning

open Blocks Ragged

variable {κ α : Type*}

/-- Entries in the order in which they were added, and the positions of their keys. -/
structure Table (κ α : Type*) where
  entries : List α := []
  positions : List (κ × ℕ) := []

namespace Table

variable [DecidableEq κ]

def add (t : Table κ α) (key : κ) (a : α) : Table κ α × ℕ :=
  (⟨t.entries ++ [a], (key, t.entries.length) :: t.positions⟩, t.entries.length)

/-- The position of the key, where `a` is added if it has none. -/
def intern (t : Table κ α) (key : κ) (a : α) : Table κ α × ℕ :=
  match t.positions.lookup key with
  | some i => (t, i)
  | none => t.add key a

def Sound (value : κ → α) (t : Table κ α) : Prop :=
  ∀ key i, t.positions.lookup key = some i → t.entries[i]? = some (value key)

variable {value : κ → α} {t : Table κ α} {key : κ}

theorem sound_empty (value : κ → α) : Sound value ({} : Table κ α) := by
  intro key i h
  cases h

/-- What adding or interning a key does to a table. -/
structure Extends (value : κ → α) (t : Table κ α) (key : κ) (r : Table κ α × ℕ) : Prop where
  sound : r.1.Sound value
  entries : t.entries <+: r.1.entries
  position : r.1.entries[r.2]? = some (value key)
  mem : ∀ a ∈ r.1.entries, a ∈ t.entries ∨ a = value key

theorem extends_add (key : κ) (h : t.Sound value) : Extends value t key (t.add key (value key)) where
  sound := by
    intro key' i hi
    rw [add, List.lookup_cons] at hi
    by_cases hkey : key' = key
    · subst hkey
      rw [beq_self_eq_true] at hi
      obtain rfl := Option.some.inj hi
      exact List.getElem?_concat_length
    · rw [beq_false_of_ne hkey] at hi
      have hold := h key' i hi
      obtain ⟨hlt, -⟩ := List.getElem?_eq_some_iff.mp hold
      rw [add, List.getElem?_append_left hlt, hold]
  entries := List.prefix_append _ _
  position := List.getElem?_concat_length
  mem := by
    intro a ha
    rcases List.mem_append.mp ha with ha | ha
    · exact .inl ha
    · exact .inr (List.mem_singleton.mp ha)

theorem extends_intern (key : κ) (h : t.Sound value) :
    Extends value t key (t.intern key (value key)) := by
  cases hkey : t.positions.lookup key with
  | none =>
    rw [intern, hkey]
    exact extends_add key h
  | some i =>
    rw [intern, hkey]
    exact ⟨h, List.prefix_refl _, h key i hkey, fun _ ha ↦ .inl ha⟩

end Table

theorem map_getElem?_of_isPrefix {entries entries' : List α} (h : entries <+: entries')
    {positions : List ℕ} {values : List α}
    (hget : positions.map (entries[·]?) = values.map some) :
    positions.map (entries'[·]?) = values.map some := by
  rw [← hget]
  apply List.map_congr_left
  intro i hi
  have hsome : entries[i]? ∈ values.map some := by
    rw [← hget]
    exact List.mem_map_of_mem hi
  obtain ⟨a, -, ha⟩ := List.mem_map.mp hsome
  obtain ⟨hlt, -⟩ := List.getElem?_eq_some_iff.mp ha.symm
  obtain ⟨rest, rfl⟩ := h
  exact List.getElem?_append_left hlt

section Rows

variable {rowOffsets indices : List ℕ} {rows : List (List ℕ)}

/-- The rows one after the other, and where each of them starts. -/
structure Compressed (rowOffsets indices : List ℕ) (rows : List (List ℕ)) : Prop where
  rowOffsets : rowOffsets = offsets (rows.map List.length)
  indices : indices = rows.flatten

theorem compressed_nil : Compressed [0] [] [] := ⟨rfl, rfl⟩

theorem offsets_concat (lens : List ℕ) (n : ℕ) :
    offsets (lens ++ [n]) = offsets lens ++ [lens.sum + n] := by
  rw [offsets, offsets, List.length_append, List.length_singleton, List.range_succ, List.map_append]
  congr 1
  · apply List.map_congr_left
    intro k hk
    exact offset_append (Nat.lt_succ_iff.mp (List.mem_range.mp hk))
  · rw [List.map_singleton, offset, List.take_of_length_le (by simp), List.sum_append]
    simp

theorem Compressed.concat (h : Compressed rowOffsets indices rows) (row : List ℕ) :
    Compressed (rowOffsets ++ [(indices ++ row).length]) (indices ++ row) (rows ++ [row]) where
  rowOffsets := by
    rw [List.map_append, List.map_singleton, offsets_concat, h.rowOffsets, h.indices,
      List.length_append, List.length_flatten]
  indices := by rw [List.flatten_append, List.flatten_singleton, h.indices]

theorem Compressed.length (h : Compressed rowOffsets indices rows) :
    rowOffsets.length = rows.length + 1 := by
  rw [h.rowOffsets, length_offsets, List.length_map]

theorem Compressed.head? (h : Compressed rowOffsets indices rows) : rowOffsets.head? = some 0 := by
  rw [h.rowOffsets, offsets, List.range_succ_eq_map]
  rfl

theorem Compressed.getLast? (h : Compressed rowOffsets indices rows) :
    rowOffsets.getLast? = some indices.length := by
  rw [h.rowOffsets, h.indices, offsets, List.range_succ, List.map_append, List.map_singleton,
    List.getLast?_concat, offset_length, List.length_flatten]

theorem Compressed.sorted (h : Compressed rowOffsets indices rows) :
    ∀ x ∈ rowOffsets.zip rowOffsets.tail, x.1 ≤ x.2 := by
  rintro ⟨a, b⟩ hx
  obtain ⟨k, hk, hget⟩ := List.getElem_of_mem hx
  rw [List.getElem_zip] at hget
  obtain ⟨rfl, rfl⟩ := Prod.mk.inj hget
  simp only [h.rowOffsets, offsets, List.getElem_tail, List.getElem_map, List.getElem_range]
  exact offset_le_succ _ k

theorem Compressed.slice {k : ℕ} {row : List ℕ} (h : Compressed rowOffsets indices rows)
    (hk : rows[k]? = some row) :
    slice indices (rowOffsets.getD k 0) (rowOffsets.getD (k + 1) 0) = row := by
  obtain ⟨hlt, -⟩ := List.getElem?_eq_some_iff.mp hk
  have hlen : (rows.map List.length).length = rows.length := List.length_map ..
  rw [h.rowOffsets, getD_offsets (by omega), getD_offsets (by omega), h.indices]
  exact slice_flatten hk

theorem getD_le_getD_of_sorted (hsorted : ∀ x ∈ rowOffsets.zip rowOffsets.tail, x.1 ≤ x.2)
    {i k : ℕ} (hik : i ≤ k) (hk : k < rowOffsets.length) : rowOffsets.getD i 0 ≤ rowOffsets.getD k 0 := by
  induction k, hik using Nat.le_induction with
  | base => exact le_rfl
  | succ k hik ih =>
    refine (ih (by omega)).trans ?_
    rw [List.getD_eq_getElem _ _ (by omega), List.getD_eq_getElem _ _ hk]
    apply hsorted (rowOffsets[k], rowOffsets[k + 1])
    rw [List.mem_iff_getElem]
    refine ⟨k, by simp; omega, ?_⟩
    rw [List.getElem_zip, List.getElem_tail]

/-- Rows are read off offsets that start at zero, do not decrease and end at the last index. -/
theorem compressed_of_checks (hhead : rowOffsets.head? = some 0)
    (hsorted : ∀ x ∈ rowOffsets.zip rowOffsets.tail, x.1 ≤ x.2)
    (hlast : rowOffsets.getLast? = some indices.length) :
    Compressed rowOffsets indices ((List.range (rowOffsets.length - 1)).map fun k ↦
      Blocks.slice indices (rowOffsets.getD k 0) (rowOffsets.getD (k + 1) 0)) := by
  have hpos : 0 < rowOffsets.length := by
    cases rowOffsets with
    | nil => cases hhead
    | cons => exact Nat.succ_pos _
  have hzero : rowOffsets.getD 0 0 = 0 := by
    rw [List.getD_eq_getElem?_getD, ← List.head?_eq_getElem?, hhead]
    rfl
  have hend : rowOffsets.getD (rowOffsets.length - 1) 0 = indices.length := by
    rw [List.getD_eq_getElem?_getD, ← List.getLast?_eq_getElem?, hlast]
    rfl
  have hle : ∀ k < rowOffsets.length, rowOffsets.getD k 0 ≤ indices.length := by
    intro k hk
    rw [← hend]
    exact getD_le_getD_of_sorted hsorted (by omega) (by omega)
  have hrow : ∀ k, k + 1 < rowOffsets.length →
      (Blocks.slice indices (rowOffsets.getD k 0) (rowOffsets.getD (k + 1) 0)).length =
        rowOffsets.getD (k + 1) 0 - rowOffsets.getD k 0 := fun k hk ↦
    length_slice (hle _ hk)
  have hrows : ∀ n < rowOffsets.length, (((List.range n).map fun k ↦
      Blocks.slice indices (rowOffsets.getD k 0) (rowOffsets.getD (k + 1) 0)).flatten =
        indices.take (rowOffsets.getD n 0)) ∧ ((List.range n).map fun k ↦
      rowOffsets.getD (k + 1) 0 - rowOffsets.getD k 0).sum = rowOffsets.getD n 0 := by
    intro n hn
    induction n with
    | zero => rw [hzero]; exact ⟨rfl, rfl⟩
    | succ n ih =>
      obtain ⟨hflat, hsum⟩ := ih (by omega)
      have hstep : rowOffsets.getD n 0 ≤ rowOffsets.getD (n + 1) 0 :=
        getD_le_getD_of_sorted hsorted (Nat.le_succ n) hn
      refine ⟨?_, ?_⟩
      · rw [List.range_succ, List.map_append, List.flatten_append, hflat, List.map_singleton,
          List.flatten_singleton, Blocks.slice]
        rw [← Nat.add_sub_cancel' hstep, List.take_add, Nat.add_sub_cancel_left]
      · rw [List.range_succ, List.map_append, List.sum_append, hsum, List.map_singleton,
          List.sum_singleton]
        omega
  refine ⟨?_, ?_⟩
  · apply List.ext_getElem
    · rw [length_offsets, List.length_map, List.length_map, List.length_range]
      omega
    · intro k hk hk'
      rw [← List.getD_eq_getElem _ 0 hk, ← List.getD_eq_getElem _ 0 hk', getD_offsets (by
        rw [List.length_map, List.length_map, List.length_range]; omega), offset, List.map_map,
        ← List.map_take, List.take_range, Nat.min_eq_left (by omega), ← (hrows k hk).2]
      congr 1
      apply List.map_congr_left
      intro l hl
      rw [List.mem_range] at hl
      exact (hrow l (by omega)).symm
  · rw [(hrows _ (by omega)).1, hend, List.take_length]

def Reads (entries : List α) (rows : List (List ℕ)) (values : List (List α)) : Prop :=
  List.Forall₂ (fun row v ↦ row.map (entries[·]?) = v.map some) rows values

variable {entries entries' : List α} {values : List (List α)}

theorem Reads.mono (h : Reads entries rows values) (hle : entries <+: entries') :
    Reads entries' rows values := h.imp fun _ _ hget ↦ map_getElem?_of_isPrefix hle hget

theorem Reads.concat (h : Reads entries rows values) {row : List ℕ} {v : List α}
    (hget : row.map (entries[·]?) = v.map some) : Reads entries (rows ++ [row]) (values ++ [v]) :=
  List.rel_append h (.cons hget .nil)

theorem Reads.getD (h : Reads entries rows values) (d : α) :
    rows.map (List.map (entries.getD · d)) = values := by
  induction h with
  | nil => rfl
  | @cons row v rows values hget _ ih =>
    have hmap : row.map (entries.getD · d) = (row.map (entries[·]?)).map (·.getD d) := by
      rw [List.map_map]
      exact List.map_congr_left fun i _ ↦ List.getD_eq_getElem?_getD
    rw [List.map_cons, ih, hmap, hget, List.map_map]
    congr 1
    exact List.map_id' _

theorem Reads.lt (h : Reads entries rows values) : ∀ i ∈ rows.flatten, i < entries.length := by
  induction h with
  | nil => intro i hi; cases hi
  | @cons row v rows values hget _ ih =>
    intro i hi
    rcases List.mem_append.mp hi with hi | hi
    · have hsome : entries[i]? ∈ v.map some := by
        rw [← hget]
        exact List.mem_map_of_mem hi
      obtain ⟨a, -, ha⟩ := List.mem_map.mp hsome
      exact (List.getElem?_eq_some_iff.mp ha.symm).1
    · exact ih i hi

end Rows

end NemoRL.Foundations.Interning
