import Mathlib
import NemoRL.Foundations.Positions

namespace NemoRL.Foundations.Packing

open Positions

variable {α β : Type*}

/-- Every item stands in one bin, and no bin holds more than its capacity. -/
structure Packs (size : α → ℤ) (capacity : ℤ) (items : List α) (bins : List (List α)) : Prop where
  perm : bins.flatten.Perm items
  fits : ∀ b ∈ bins, (b.map size).sum ≤ capacity

theorem modify_perm {l : List α} {i : ℕ} {a : α} (h : l[i]? = some a) (f : α → α) :
    (l.modify i f).Perm (f a :: l.eraseIdx i) := by
  rw [modify_eq_set h]
  exact set_perm h (f a)

namespace Packs

variable {size : α → ℤ} {capacity : ℤ} {items items' : List α} {bins bins' : List (List α)}

theorem nil : Packs size capacity [] [] := ⟨List.Perm.refl _, by simp⟩

theorem of_perm_items (h : Packs size capacity items bins) (hp : items.Perm items') :
    Packs size capacity items' bins := ⟨h.perm.trans hp, h.fits⟩

theorem of_perm_bins (h : Packs size capacity items bins) (hp : bins.Perm bins') :
    Packs size capacity items bins' :=
  ⟨hp.flatten.symm.trans h.perm, fun b hb ↦ h.fits b (hp.mem_iff.mpr hb)⟩

theorem append (h : Packs size capacity items bins) (h' : Packs size capacity items' bins') :
    Packs size capacity (items ++ items') (bins ++ bins') where
  perm := by
    rw [List.flatten_append]
    exact h.perm.append h'.perm
  fits := List.forall_mem_append.mpr ⟨h.fits, h'.fits⟩

theorem singleton {b : List α} (hb : (b.map size).sum ≤ capacity) :
    Packs size capacity b [b] := ⟨by simp, by simpa using hb⟩

theorem cons {b : List α} (hb : (b.map size).sum ≤ capacity)
    (h : Packs size capacity items bins) : Packs size capacity (b ++ items) (b :: bins) :=
  (singleton hb).append h

theorem uncons {b : List α} (h : Packs size capacity items (b :: bins)) :
    ∃ rest, Packs size capacity rest bins ∧ items.Perm (b ++ rest) :=
  ⟨bins.flatten, ⟨List.Perm.refl _, fun c hc ↦ h.fits c (List.mem_cons_of_mem _ hc)⟩,
    h.perm.symm⟩

theorem modify {i : ℕ} {b : List α} {a : α} (h : Packs size capacity items bins)
    (hi : bins[i]? = some b) (ha : (b.map size).sum + size a ≤ capacity) :
    Packs size capacity (a :: items) (bins.modify i (· ++ [a])) := by
  obtain ⟨rest, hrest, hp⟩ := (h.of_perm_bins (perm_cons_eraseIdx hi)).uncons
  have hgrown : Packs size capacity ((b ++ [a]) ++ rest) ((b ++ [a]) :: bins.eraseIdx i) :=
    hrest.cons (by simpa using ha)
  refine (hgrown.of_perm_items ?_).of_perm_bins (modify_perm hi (· ++ [a])).symm
  have hmove : (b ++ [a] ++ rest).Perm (a :: (b ++ rest)) := by
    rw [List.append_assoc]
    exact List.perm_middle
  exact hmove.trans (hp.symm.cons a)

theorem move {i j : ℕ} {b : List α} {a : α} (h : Packs size capacity items bins)
    (hi : bins[i]? = some (b ++ [a])) (hj : bins[j]? = some []) (hb : (b.map size).sum ≤ capacity)
    (ha : size a ≤ capacity) :
    Packs size capacity items ((bins.modify i List.dropLast).modify j (· ++ [a])) := by
  have hij : i ≠ j := by
    rintro rfl
    simp [hi] at hj
  obtain ⟨rest, hrest, hp⟩ := (h.of_perm_bins (perm_cons_eraseIdx hi)).uncons
  have hshrunk : Packs size capacity (b ++ rest) (bins.modify i List.dropLast) := by
    have hperm := modify_perm hi List.dropLast
    rw [List.dropLast_concat] at hperm
    exact (hrest.cons hb).of_perm_bins hperm.symm
  have hempty : (bins.modify i List.dropLast)[j]? = some [] := by
    rw [List.getElem?_modify_ne _ _ hij, hj]
  refine (hshrunk.modify hempty (by simpa using ha)).of_perm_items ?_
  have hmove : (b ++ [a] ++ rest).Perm (a :: (b ++ rest)) := by
    rw [List.append_assoc]
    exact List.perm_middle
  exact (hp.trans hmove).symm

theorem open_bin {a : α} (h : Packs size capacity items bins) (ha : size a ≤ capacity) :
    Packs size capacity (a :: items) (bins ++ [[a]]) :=
  (h.append (singleton (b := [a]) (by simpa using ha))).of_perm_items List.perm_append_comm

theorem filter_nonempty (h : Packs size capacity items bins) :
    Packs size capacity items (bins.filter fun b ↦ !b.isEmpty) where
  perm := by
    have hflat : (bins.filter fun b ↦ !b.isEmpty).flatten = bins.flatten :=
      List.flatten_filter_not_isEmpty
    rw [hflat]
    exact h.perm
  fits := fun b hb ↦ h.fits b (List.mem_of_mem_filter hb)

theorem map {size' : β → ℤ} (h : Packs size capacity items bins) (f : α → β)
    (hf : ∀ a ∈ items, size' (f a) = size a) :
    Packs size' capacity (items.map f) (bins.map (List.map f)) where
  perm := by
    rw [← List.map_flatten]
    exact h.perm.map f
  fits := by
    intro c hc
    obtain ⟨b, hb, rfl⟩ := List.mem_map.mp hc
    have hsize : (b.map f).map size' = b.map size := by
      rw [List.map_map]
      refine List.map_congr_left fun a ha ↦ hf a (h.perm.mem_iff.mp ?_)
      exact List.mem_flatten.mpr ⟨b, hb, ha⟩
    rw [hsize]
    exact h.fits b hb

theorem mem_items (h : Packs size capacity items bins) {b : List α} (hb : b ∈ bins) {a : α}
    (ha : a ∈ b) : a ∈ items := h.perm.mem_iff.mp (List.mem_flatten.mpr ⟨b, hb, ha⟩)

/-- Bins that hold something are no more than the items. -/
theorem length_le (h : Packs size capacity items bins) (hne : ∀ b ∈ bins, b ≠ []) :
    bins.length ≤ items.length := by
  rw [← h.perm.length_eq, List.length_flatten]
  have hone : ∀ n ∈ bins.map List.length, 1 ≤ n := by
    intro n hn
    obtain ⟨b, hb, rfl⟩ := List.mem_map.mp hn
    exact List.length_pos_iff.mpr (hne b hb)
  have h := List.length_le_sum_of_one_le _ hone
  rwa [List.length_map] at h

end Packs

/-- One pass over the bins in which each may take items from a common pool. -/
def sweep (f : List α → List α → List α × List α) :
    List (List α) → List α → List (List α) × List α
  | [], pool => ([], pool)
  | b :: bins, pool =>
    let r := f b pool
    let rs := sweep f bins r.2
    (r.1 :: rs.1, rs.2)

/-- What one visit to a bin has to respect: items only move from the pool into
the bin, and the bin stays within its capacity. -/
structure Takes (size : α → ℤ) (capacity : ℤ) (f : List α → List α → List α × List α) : Prop where
  perm : ∀ b pool, ((f b pool).1 ++ (f b pool).2).Perm (b ++ pool)
  fits : ∀ b pool, (b.map size).sum ≤ capacity → ((f b pool).1.map size).sum ≤ capacity

namespace Takes

variable {size : α → ℤ} {capacity : ℤ} {f : List α → List α → List α × List α}

theorem sweep_perm (h : Takes size capacity f) (bins : List (List α)) (pool : List α) :
    ((sweep f bins pool).1.flatten ++ (sweep f bins pool).2).Perm (bins.flatten ++ pool) := by
  induction bins generalizing pool with
  | nil => exact List.Perm.refl _
  | cons b bins ih =>
    simp only [sweep, List.flatten_cons, List.append_assoc]
    have hrest := (ih (f b pool).2).append_left (f b pool).1
    refine hrest.trans ?_
    rw [← List.append_assoc, ← List.append_assoc]
    refine (List.perm_append_comm.append_right _).trans ?_
    rw [List.append_assoc]
    refine ((h.perm b pool).append_left bins.flatten).trans ?_
    rw [← List.append_assoc]
    exact List.perm_append_comm.append_right _

theorem sweep_fits (h : Takes size capacity f) {bins : List (List α)} (pool : List α)
    (hb : ∀ b ∈ bins, (b.map size).sum ≤ capacity) :
    ∀ b ∈ (sweep f bins pool).1, (b.map size).sum ≤ capacity := by
  induction bins generalizing pool with
  | nil => simp [sweep]
  | cons b bins ih =>
    obtain ⟨hhead, htail⟩ := List.forall_mem_cons.mp hb
    exact List.forall_mem_cons.mpr ⟨h.fits b pool hhead, ih _ htail⟩

end Takes

theorem take_perm {pool : List α} {i : ℕ} {a : α} (h : pool[i]? = some a) (b : List α) :
    ((b ++ [a]) ++ pool.eraseIdx i).Perm (b ++ pool) := by
  rw [List.append_assoc]
  exact (perm_cons_eraseIdx h).symm.append_left b

end NemoRL.Foundations.Packing
