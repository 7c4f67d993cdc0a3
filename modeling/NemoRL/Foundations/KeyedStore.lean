import Mathlib

namespace NemoRL.Foundations

/-- A store that holds at most one row under each key. -/
def KeyedStore (κ ν : Type*) := κ → Option ν

namespace KeyedStore

variable {κ ν : Type*} [DecidableEq κ]

def empty : KeyedStore κ ν := fun _ ↦ none

def write (d : KeyedStore κ ν) (k : κ) (v : ν) : KeyedStore κ ν :=
  fun j ↦ if j = k then some v else d j

def put (d : KeyedStore κ ν) (rows : List (κ × ν)) : KeyedStore κ ν :=
  rows.foldl (fun e r ↦ e.write r.1 r.2) d

def clear (d : KeyedStore κ ν) (keys : List κ) : KeyedStore κ ν :=
  fun j ↦ if j ∈ keys then none else d j

/-- The keys that hold a row. -/
def Holds (d : KeyedStore κ ν) (k : κ) : Prop := (d k).isSome

instance (d : KeyedStore κ ν) (k : κ) : Decidable (d.Holds k) :=
  inferInstanceAs (Decidable (_ = true))

omit [DecidableEq κ] in
@[simp] theorem not_holds_empty (k : κ) : ¬ (empty : KeyedStore κ ν).Holds k := by
  simp [Holds, empty]

@[simp] theorem holds_write (d : KeyedStore κ ν) (k j : κ) (v : ν) :
    (d.write k v).Holds j ↔ j = k ∨ d.Holds j := by
  by_cases h : j = k <;> simp [Holds, write, h]

@[simp] theorem holds_clear (d : KeyedStore κ ν) (keys : List κ) (j : κ) :
    (d.clear keys).Holds j ↔ j ∉ keys ∧ d.Holds j := by
  by_cases h : j ∈ keys <;> simp [Holds, clear, h]

@[simp] theorem holds_put (d : KeyedStore κ ν) (rows : List (κ × ν)) (j : κ) :
    (d.put rows).Holds j ↔ j ∈ rows.map Prod.fst ∨ d.Holds j := by
  induction rows generalizing d with
  | nil => simp [put]
  | cons r rows ih =>
    have h := ih (d.write r.1 r.2)
    simp only [put, List.foldl_cons] at h ⊢
    rw [h, holds_write, List.map_cons, List.mem_cons]
    tauto

/-- Every row stands under one of the keys. -/
def Covered (d : KeyedStore κ ν) (keys : List κ) : Prop := ∀ k, d.Holds k → k ∈ keys

def Present (d : KeyedStore κ ν) (keys : List κ) : Prop := ∀ k ∈ keys, d.Holds k

section Ownership

variable {d : KeyedStore κ ν} {keys keys' : List κ}

omit [DecidableEq κ] in
theorem covered_empty (keys : List κ) : (empty : KeyedStore κ ν).Covered keys :=
  fun k h ↦ absurd h (not_holds_empty k)

omit [DecidableEq κ] in
theorem Covered.mono (h : d.Covered keys) (hk : ∀ k ∈ keys, k ∈ keys') : d.Covered keys' :=
  fun k hd ↦ hk k (h k hd)

theorem Covered.put (h : d.Covered keys) {rows : List (κ × ν)}
    (hr : ∀ k ∈ rows.map Prod.fst, k ∈ keys) : (d.put rows).Covered keys := by
  intro k hk
  rcases (holds_put d rows k).mp hk with hm | hd
  · exact hr k hm
  · exact h k hd

theorem Covered.clear (h : d.Covered keys) {gone : List κ}
    (hk : ∀ k ∈ keys, k ∈ gone ∨ k ∈ keys') : (d.clear gone).Covered keys' := by
  intro k hd
  obtain ⟨hg, hd⟩ := (holds_clear d gone k).mp hd
  exact (hk k (h k hd)).resolve_left hg

omit [DecidableEq κ] in
theorem Present.mono (h : d.Present keys) (hk : ∀ k ∈ keys', k ∈ keys) : d.Present keys' :=
  fun k hd ↦ h k (hk k hd)

theorem Present.put (h : d.Present keys) (rows : List (κ × ν)) : (d.put rows).Present keys :=
  fun k hk ↦ (holds_put d rows k).mpr (.inr (h k hk))

theorem present_put (d : KeyedStore κ ν) (rows : List (κ × ν)) :
    (d.put rows).Present (rows.map Prod.fst) :=
  fun k hk ↦ (holds_put d rows k).mpr (.inl hk)

theorem Present.clear (h : d.Present keys) {gone : List κ} (hk : ∀ k ∈ keys, k ∉ gone) :
    (d.clear gone).Present keys :=
  fun k hd ↦ (holds_clear d gone k).mpr ⟨hk k hd, h k hd⟩

end Ownership

theorem put_of_notMem {d : KeyedStore κ ν} {rows : List (κ × ν)} {k : κ}
    (h : k ∉ rows.map Prod.fst) : d.put rows k = d k := by
  induction rows generalizing d with
  | nil => rfl
  | cons r rows ih =>
    rw [List.map_cons, List.mem_cons, not_or] at h
    exact (ih (d := d.write r.1 r.2) h.2).trans (if_neg h.1)

/-- Rows put under distinct keys are found under them. -/
theorem put_of_mem {d : KeyedStore κ ν} {rows : List (κ × ν)} (hnd : (rows.map Prod.fst).Nodup)
    {k : κ} {v : ν} (h : (k, v) ∈ rows) : d.put rows k = some v := by
  induction rows generalizing d with
  | nil => cases h
  | cons r rows ih =>
    obtain ⟨hnot, hnd⟩ := List.nodup_cons.mp hnd
    rcases List.mem_cons.mp h with rfl | h
    · exact (put_of_notMem hnot).trans (if_pos rfl)
    · exact ih hnd h

theorem put_append (d : KeyedStore κ ν) (rows more : List (κ × ν)) :
    d.put (rows ++ more) = (d.put rows).put more :=
  List.foldl_append

end KeyedStore

end NemoRL.Foundations
