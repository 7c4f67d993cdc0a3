import Mathlib

namespace NemoRL.Foundations.Overlays

variable {κ ν : Type*}

/-- A write, by what it puts into each of the cells that it changes. -/
abbrev Write (κ ν : Type*) := κ → Option ν

def apply (m : κ → ν) (w : Write κ ν) : κ → ν := fun x ↦ (w x).getD (m x)

def applyAll (m : κ → ν) (ws : List (Write κ ν)) : κ → ν := ws.foldl apply m

def Apart (w w' : Write κ ν) : Prop := ∀ x, w x = none ∨ w' x = none

/-- Several writes as one; in a cell that more than one changes, the first counts. -/
def merged (ws : List (Write κ ν)) : Write κ ν := fun x ↦ ws.findSome? (· x)

variable {m : κ → ν} {w : Write κ ν} {ws ws' : List (Write κ ν)} {x : κ} {v : ν}

theorem Apart.symm {w' : Write κ ν} (h : Apart w w') : Apart w' w := fun x ↦ (h x).symm

theorem applyAll_cons (m : κ → ν) (w : Write κ ν) (ws : List (Write κ ν)) :
    applyAll m (w :: ws) = applyAll (apply m w) ws := rfl

theorem applyAll_append (m : κ → ν) (ws ws' : List (Write κ ν)) :
    applyAll m (ws ++ ws') = applyAll (applyAll m ws) ws' := List.foldl_append

theorem applyAll_of_forall_none (h : ∀ w ∈ ws, w x = none) : applyAll m ws x = m x := by
  induction ws generalizing m with
  | nil => rfl
  | cons w ws ih =>
    rw [applyAll_cons, ih fun w' hw' ↦ h w' (List.mem_cons_of_mem _ hw'), apply,
      h w List.mem_cons_self]
    rfl

/-- Of writes that are apart, each leaves what it wrote. -/
theorem applyAll_of_mem (hd : ws.Pairwise Apart) (hw : w ∈ ws) (hx : w x = some v) :
    applyAll m ws x = v := by
  induction ws generalizing m with
  | nil => exact absurd hw List.not_mem_nil
  | cons w' ws ih =>
    obtain ⟨hfirst, hrest⟩ := List.pairwise_cons.mp hd
    rw [applyAll_cons]
    rcases List.mem_cons.mp hw with rfl | hw
    · have hnone : ∀ w' ∈ ws, w' x = none := fun w' hw' ↦
        (hfirst w' hw' x).resolve_left (by rw [hx]; exact nofun)
      rw [applyAll_of_forall_none hnone, apply, hx]
      rfl
    · exact ih hrest hw

theorem applyAll_perm (hd : ws.Pairwise Apart) (h : ws.Perm ws') :
    applyAll m ws = applyAll m ws' := by
  have hd' : ws'.Pairwise Apart := hd.perm h Apart.symm
  funext x
  by_cases hx : ∃ w ∈ ws, ∃ v, w x = some v
  · obtain ⟨w, hw, v, hv⟩ := hx
    rw [applyAll_of_mem hd hw hv, applyAll_of_mem hd' (h.mem_iff.mp hw) hv]
  · have hnone : ∀ w ∈ ws, w x = none := fun w hw ↦
      Option.eq_none_iff_forall_not_mem.mpr fun v hv ↦ hx ⟨w, hw, v, hv⟩
    rw [applyAll_of_forall_none hnone,
      applyAll_of_forall_none fun w hw ↦ hnone w (h.mem_iff.mpr hw)]

theorem foldlM_applyAll {α : Type*} {step : (κ → ν) → α → Option (κ → ν)}
    {writes : α → List (Write κ ν)} {l : List α}
    (h : ∀ a ∈ l, ∀ m, step m a = some (applyAll m (writes a))) :
    l.foldlM step m = some (applyAll m (l.flatMap writes)) := by
  induction l generalizing m with
  | nil => rfl
  | cons a l ih =>
    rw [List.foldlM_cons, h a List.mem_cons_self, List.flatMap_cons, applyAll_append]
    exact ih fun b hb ↦ h b (List.mem_cons_of_mem _ hb)

theorem merged_of_forall_none (h : ∀ w ∈ ws, w x = none) : merged ws x = none :=
  List.findSome?_eq_none_iff.mpr h

theorem merged_of_mem (hd : ws.Pairwise Apart) (hw : w ∈ ws) (hx : w x = some v) :
    merged ws x = some v := by
  induction ws with
  | nil => exact absurd hw List.not_mem_nil
  | cons w' ws ih =>
    obtain ⟨hfirst, hrest⟩ := List.pairwise_cons.mp hd
    rw [merged, List.findSome?_cons]
    rcases List.mem_cons.mp hw with rfl | hw
    · rw [hx]
    · have hnone : w' x = none := (hfirst w hw x).resolve_right (by rw [hx]; exact nofun)
      rw [hnone]
      exact ih hrest hw

theorem apply_merged (hd : ws.Pairwise Apart) : apply m (merged ws) = applyAll m ws := by
  funext x
  by_cases hx : ∃ w ∈ ws, ∃ v, w x = some v
  · obtain ⟨w, hw, v, hv⟩ := hx
    rw [applyAll_of_mem hd hw hv, apply, merged_of_mem hd hw hv]
    rfl
  · have hnone : ∀ w ∈ ws, w x = none := fun w hw ↦
      Option.eq_none_iff_forall_not_mem.mpr fun v hv ↦ hx ⟨w, hw, v, hv⟩
    rw [applyAll_of_forall_none hnone, apply, merged_of_forall_none hnone]
    rfl

end NemoRL.Foundations.Overlays
