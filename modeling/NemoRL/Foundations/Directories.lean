import Mathlib
import NemoRL.Foundations.Transition

namespace NemoRL.Foundations.Directories

/-- A directory: what it was made for, and the names in it. -/
structure Dir (τ ε : Type*) where
  tag : τ
  entries : Finset ε

abbrev Disk (κ τ ε : Type*) := Finmap fun _ : κ ↦ Dir τ ε

namespace Disk

variable {κ τ ε : Type*} [DecidableEq κ]

def mkdir (d : Disk κ τ ε) (p : κ) (tag : τ) : Disk κ τ ε :=
  d.insert p ⟨tag, ∅⟩

def revise (d : Disk κ τ ε) (p : κ) (f : Finset ε → Finset ε) : Disk κ τ ε :=
  match d.lookup p with
  | some x => d.insert p { x with entries := f x.entries }
  | none => d

def listdir (d : Disk κ τ ε) (p : κ) : Finset ε :=
  ((d.lookup p).map Dir.entries).getD ∅

variable {d d' : Disk κ τ ε} {p q : κ} {x y : Dir τ ε} {f : Finset ε → Finset ε}

theorem listdir_of_lookup (h : d.lookup p = some x) : d.listdir p = x.entries := by
  rw [listdir, h]
  rfl

theorem listdir_of_notMem (h : p ∉ d) : d.listdir p = ∅ := by
  rw [listdir, Finmap.lookup_eq_none.mpr h]
  rfl

theorem listdir_congr (h : d'.lookup p = d.lookup p) : d'.listdir p = d.listdir p := by
  rw [listdir, listdir, h]

theorem mem_congr (h : d'.lookup p = d.lookup p) : p ∈ d' ↔ p ∈ d := by
  rw [Finmap.mem_iff, Finmap.mem_iff, h]

theorem lookup_mkdir (d : Disk κ τ ε) (p : κ) (tag : τ) :
    (d.mkdir p tag).lookup p = some ⟨tag, ∅⟩ :=
  Finmap.lookup_insert _

theorem lookup_mkdir_of_ne (d : Disk κ τ ε) (tag : τ) (h : q ≠ p) :
    (d.mkdir p tag).lookup q = d.lookup q :=
  Finmap.lookup_insert_of_ne _ h

theorem lookup_revise (h : d.lookup p = some x) :
    (d.revise p f).lookup p = some { x with entries := f x.entries } := by
  simp only [revise, h, Finmap.lookup_insert]

theorem lookup_revise_of_ne (h : q ≠ p) : (d.revise p f).lookup q = d.lookup q := by
  unfold revise
  split
  · exact Finmap.lookup_insert_of_ne _ h
  · rfl

theorem mem_revise : q ∈ d.revise p f ↔ q ∈ d := by
  by_cases h : q = p
  · subst h
    cases hx : d.lookup q with
    | none => simp only [revise, hx]
    | some x => simp only [Finmap.mem_iff, lookup_revise hx, hx, Option.some.injEq, exists_eq']
  · rw [Finmap.mem_iff, Finmap.mem_iff, lookup_revise_of_ne h]

theorem listdir_revise_subset (hf : ∀ E, f E ⊆ E) (q : κ) :
    (d.revise p f).listdir q ⊆ d.listdir q := by
  by_cases hq : q = p
  · subst hq
    cases hx : d.lookup q with
    | none => simp only [revise, hx, Finset.Subset.refl]
    | some x =>
      rw [listdir_of_lookup hx, listdir_of_lookup (lookup_revise hx)]
      exact hf x.entries
  · rw [listdir_congr (lookup_revise_of_ne hq)]

variable [DecidableEq ε]

def write (d : Disk κ τ ε) (p : κ) (e : ε) : Disk κ τ ε :=
  d.revise p (insert e)

def unlink (d : Disk κ τ ε) (p : κ) (e : ε) : Disk κ τ ε :=
  d.revise p (Finset.erase · e)

/-- `os.rename` of a directory: the source has to be there, and the destination may only be
an empty directory. -/
def rename (d : Disk κ τ ε) (p q : κ) : Option (Disk κ τ ε) :=
  match d.lookup p with
  | some x => if d.listdir q = ∅ then some ((d.erase p).insert q x) else none
  | none => none

theorem rename_eq_some (h : d.rename p q = some d') :
    ∃ x, d.lookup p = some x ∧ d.listdir q = ∅ ∧ d' = (d.erase p).insert q x := by
  unfold rename at h
  split at h
  · next x hx =>
    split_ifs at h with hq
    exact ⟨x, hx, hq, (Option.some.inj h).symm⟩
  · cases h

theorem rename_of_lookup (h : d.lookup p = some x) (hq : d.listdir q = ∅) :
    d.rename p q = some ((d.erase p).insert q x) := by
  simp only [rename, h, hq, if_true]

section Runs

open Transition

variable {σ ι : Type*} (step : σ → ι → Option σ) (ok : σ → ι → Prop)

/-- Entries that a program may remove one at a time are all removed in some run. -/
theorem exists_emptied (put : Disk κ τ ε → σ) (event : ε → ι)
    (hstep : ∀ d : Disk κ τ ε, ∀ e ∈ d.listdir p,
      ok (put d) (event e) ∧ step (put d) (event e) = some (put (d.unlink p e)))
    (h : d.lookup p = some x) :
    ∃ d' : Disk κ τ ε, ReachableBy step (· = put d) ok (put d') ∧
      d'.lookup p = some ⟨x.tag, ∅⟩ ∧ ∀ q, q ≠ p → d'.lookup q = d.lookup q := by
  obtain ⟨tag, entries⟩ := x
  induction entries using Finset.induction_on generalizing d with
  | empty => exact ⟨d, .init rfl, h, fun _ _ ↦ rfl⟩
  | insert e entries he ih =>
    have hmem : e ∈ d.listdir p := by
      rw [listdir_of_lookup h]
      exact Finset.mem_insert_self e entries
    obtain ⟨hok, hs⟩ := hstep d e hmem
    have hnext : (d.unlink p e).lookup p = some ⟨tag, entries⟩ := by
      rw [unlink, lookup_revise h, Finset.erase_insert he]
    obtain ⟨d', hreach, hempty, hframe⟩ := ih hnext
    refine ⟨d', (ReachableBy.single hok hs).trans hreach, hempty, fun q hq ↦ ?_⟩
    rw [hframe q hq, unlink, lookup_revise_of_ne hq]

/-- Entries that a program may write one at a time are all written in some run. -/
theorem exists_filled {φ : Type*} [DecidableEq φ] (put : Disk κ τ ε → σ) (entry : φ → ε)
    (event : φ → ι) {F : Finset φ}
    (hstep : ∀ d : Disk κ τ ε, ∀ f ∈ F,
      ok (put d) (event f) ∧ step (put d) (event f) = some (put (d.write p (entry f))))
    (h : d.lookup p = some x) :
    ∃ d' : Disk κ τ ε, ReachableBy step (· = put d) ok (put d') ∧
      d'.lookup p = some ⟨x.tag, F.image entry ∪ x.entries⟩ ∧
      ∀ q, q ≠ p → d'.lookup q = d.lookup q := by
  induction F using Finset.induction_on with
  | empty => exact ⟨d, .init rfl, by rw [h, Finset.image_empty, Finset.empty_union], fun _ _ ↦ rfl⟩
  | insert f F hf ih =>
    obtain ⟨d', hreach, hfilled, hframe⟩ := ih fun d f hf ↦ hstep d f (Finset.mem_insert_of_mem hf)
    obtain ⟨hok, hs⟩ := hstep d' f (Finset.mem_insert_self f F)
    refine ⟨d'.write p (entry f), hreach.step hok hs, ?_, fun q hq ↦ ?_⟩
    · rw [write, lookup_revise hfilled, Finset.image_insert, Finset.insert_union]
    · rw [write, lookup_revise_of_ne hq, hframe q hq]

end Runs

end Disk

end NemoRL.Foundations.Directories
