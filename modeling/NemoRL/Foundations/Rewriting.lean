import Mathlib

namespace NemoRL.Foundations.Rewriting

variable {α : Type*}

/-- Every occurrence of a pattern is replaced, the occurrences taken from the left. -/
inductive Substituted (p r : List α) : List α → List α → Prop
  | nil : Substituted p r [] []
  | keep {a : α} {l out : List α} (hfresh : ¬ p <+: a :: l) (h : Substituted p r l out) :
      Substituted p r (a :: l) (a :: out)
  | swap {l out : List α} (h : Substituted p r l out) : Substituted p r (p ++ l) (r ++ out)

namespace Substituted

variable {p r q l out : List α}

theorem of_not_occurs (h : ¬ p <:+: l) : Substituted p r l l := by
  induction l with
  | nil => exact .nil
  | cons a l ih =>
    refine .keep (fun hp ↦ h hp.isInfix) (ih fun hl ↦ h (List.infix_cons hl))

theorem eq_of_not_occurs (h : Substituted p r l out) (hp : ¬ p <:+: l) : out = l := by
  induction h with
  | nil => rfl
  | keep hfresh h ih => rw [ih fun hl ↦ hp (List.infix_cons hl)]
  | swap h ih => exact absurd List.infix_append_left hp

theorem prefix_reflect (h : Substituted p r l out) (hr : r ≠ []) (hq : q.Disjoint r)
    (hout : q <+: out) : q <+: l := by
  induction h generalizing q with
  | nil => exact hout
  | keep hfresh h ih =>
    cases q with
    | nil => exact List.nil_prefix
    | cons b q =>
      obtain ⟨rfl, htail⟩ := List.cons_prefix_cons.mp hout
      exact List.cons_prefix_cons.mpr
        ⟨rfl, ih (List.disjoint_of_disjoint_cons_left hq) htail⟩
  | swap h ih =>
    cases q with
    | nil => exact List.nil_prefix
    | cons b q =>
      obtain ⟨c, r, rfl⟩ := List.exists_cons_of_ne_nil hr
      obtain ⟨rfl, -⟩ := List.cons_prefix_cons.mp hout
      exact absurd (List.mem_cons_self ..) (hq (List.mem_cons_self ..))

/-- A list with no entry of `r` occurs after `r` when it occurs in `r` and what follows. -/
theorem infix_of_infix_append (hq : q.Disjoint r) (h : q <:+: r ++ out) : q <:+: out := by
  induction r with
  | nil => exact h
  | cons c r ih =>
    rcases List.infix_cons_iff.mp h with hpre | hrest
    · cases q with
      | nil => exact List.nil_infix
      | cons b q =>
        obtain ⟨rfl, -⟩ := List.cons_prefix_cons.mp hpre
        exact absurd (List.mem_cons_self ..) (hq (List.mem_cons_self ..))
    · exact ih (List.disjoint_of_disjoint_cons_right hq) hrest

theorem infix_reflect (h : Substituted p r l out) (hr : r ≠ []) (hq : q.Disjoint r)
    (hout : q <:+: out) : q <:+: l := by
  induction h with
  | nil => exact hout
  | keep hfresh h ih =>
    rcases List.infix_cons_iff.mp hout with hpre | hrest
    · exact (prefix_reflect (.keep hfresh h) hr hq hpre).isInfix
    · exact List.infix_cons (ih hrest)
  | swap h ih =>
    exact List.infix_append_of_infix_right (ih (infix_of_infix_append hq hout))

theorem not_occurs (h : Substituted p r l out) (hp : p ≠ []) (hr : r ≠ []) (hpr : p.Disjoint r) :
    ¬ p <:+: out := by
  induction h with
  | nil => exact fun hnil ↦ hp (List.infix_nil.mp hnil)
  | keep hfresh h ih =>
    intro hout
    rcases List.infix_cons_iff.mp hout with hpre | hrest
    · exact hfresh (prefix_reflect (.keep hfresh h) hr hpr hpre)
    · exact ih hrest
  | swap h ih => exact fun hout ↦ ih (infix_of_infix_append hpr hout)

theorem prefix_preserve (h : Substituted p r l out) (hp : p ≠ []) (hq : q.Disjoint p)
    (hl : q <+: l) : q <+: out := by
  induction h generalizing q with
  | nil => exact hl
  | keep hfresh h ih =>
    cases q with
    | nil => exact List.nil_prefix
    | cons b q =>
      obtain ⟨rfl, htail⟩ := List.cons_prefix_cons.mp hl
      exact List.cons_prefix_cons.mpr
        ⟨rfl, ih (List.disjoint_of_disjoint_cons_left hq) htail⟩
  | swap h ih =>
    cases q with
    | nil => exact List.nil_prefix
    | cons b q =>
      obtain ⟨c, p, rfl⟩ := List.exists_cons_of_ne_nil hp
      obtain ⟨rfl, -⟩ := List.cons_prefix_cons.mp hl
      exact absurd (List.mem_cons_self ..) (hq (List.mem_cons_self ..))

theorem infix_preserve (h : Substituted p r l out) (hp : p ≠ []) (hq : q.Disjoint p)
    (hl : q <:+: l) : q <:+: out := by
  induction h with
  | nil => exact hl
  | keep hfresh h ih =>
    rcases List.infix_cons_iff.mp hl with hpre | hrest
    · exact (prefix_preserve (.keep hfresh h) hp hq hpre).isInfix
    · exact List.infix_cons (ih hrest)
  | swap h ih => exact List.infix_append_of_infix_right (ih (infix_of_infix_append hq hl))

theorem eq_of_disjoint (h : Substituted p r l out) (hr : r ≠ []) (hout : out.Disjoint r) :
    out = l := by
  induction h with
  | nil => rfl
  | keep hfresh h ih => rw [ih (List.disjoint_of_disjoint_cons_left hout)]
  | swap h ih =>
    obtain ⟨c, r, rfl⟩ := List.exists_cons_of_ne_nil hr
    exact absurd (List.mem_cons_self ..) (hout (List.mem_cons_self ..))

theorem eq_nil (h : Substituted p r l []) (hr : r ≠ []) : l = [] :=
  (h.eq_of_disjoint hr (List.disjoint_nil_left r)).symm

theorem cons_cases {x b : α} (h : Substituted p [x] l (b :: out)) :
    (∃ l', l = b :: l' ∧ Substituted p [x] l' out) ∨
      (b = x ∧ ∃ l', l = p ++ l' ∧ Substituted p [x] l' out) := by
  generalize hout : b :: out = out' at h
  cases h with
  | nil => cases hout
  | @keep a l out' hfresh h =>
    obtain ⟨rfl, rfl⟩ := List.cons.inj hout
    exact .inl ⟨l, rfl, h⟩
  | @swap l out' h =>
    obtain ⟨rfl, rfl⟩ := List.cons.inj hout
    exact .inr ⟨rfl, l, rfl, h⟩

end Substituted

/-- Rules applied one after the other, each to what the last one left. -/
inductive Rewritten : List (List α × List α) → List α → List α → Prop
  | nil (l : List α) : Rewritten [] l l
  | cons {p r l mid out : List α} {rules : List (List α × List α)} (h : Substituted p r l mid)
      (hrest : Rewritten rules mid out) : Rewritten ((p, r) :: rules) l out

/-- Rules whose patterns do not come back: no pattern is empty or has an entry of its own
replacement or of a later one. -/
structure Settling (rules : List (List α × List α)) : Prop where
  ne_nil : ∀ rule ∈ rules, rule.1 ≠ [] ∧ rule.2 ≠ []
  disjoint : ∀ rule ∈ rules, rule.1.Disjoint rule.2
  later : rules.Pairwise fun rule rule' ↦ rule.1.Disjoint rule'.2

theorem Settling.tail {rule : List α × List α} {rules : List (List α × List α)}
    (h : Settling (rule :: rules)) : Settling rules where
  ne_nil := fun x hx ↦ h.ne_nil x (List.mem_cons_of_mem _ hx)
  disjoint := fun x hx ↦ h.disjoint x (List.mem_cons_of_mem _ hx)
  later := (List.pairwise_cons.mp h.later).2

namespace Rewritten

variable {rules : List (List α × List α)} {q l out : List α}

theorem eq_of_not_occurs (h : Rewritten rules l out) (hl : ∀ rule ∈ rules, ¬ rule.1 <:+: l) :
    out = l := by
  induction h with
  | nil l => rfl
  | cons h hrest ih =>
    obtain rfl := h.eq_of_not_occurs (hl _ (List.mem_cons_self ..))
    exact ih fun x hx ↦ hl x (List.mem_cons_of_mem _ hx)

theorem infix_reflect (h : Rewritten rules l out)
    (hq : ∀ rule ∈ rules, rule.2 ≠ [] ∧ q.Disjoint rule.2) (hout : q <:+: out) : q <:+: l := by
  induction h with
  | nil l => exact hout
  | cons h hrest ih =>
    obtain ⟨hr, hdisjoint⟩ := hq _ (List.mem_cons_self ..)
    exact h.infix_reflect hr hdisjoint (ih (fun x hx ↦ hq x (List.mem_cons_of_mem _ hx)) hout)

theorem prefix_reflect (h : Rewritten rules l out)
    (hq : ∀ rule ∈ rules, rule.2 ≠ [] ∧ q.Disjoint rule.2) (hout : q <+: out) : q <+: l := by
  induction h with
  | nil l => exact hout
  | cons h hrest ih =>
    obtain ⟨hr, hdisjoint⟩ := hq _ (List.mem_cons_self ..)
    exact h.prefix_reflect hr hdisjoint (ih (fun x hx ↦ hq x (List.mem_cons_of_mem _ hx)) hout)

theorem infix_preserve (h : Rewritten rules l out)
    (hq : ∀ rule ∈ rules, rule.1 ≠ [] ∧ q.Disjoint rule.1) (hl : q <:+: l) : q <:+: out := by
  induction h with
  | nil l => exact hl
  | cons h hrest ih =>
    obtain ⟨hp, hdisjoint⟩ := hq _ (List.mem_cons_self ..)
    exact ih (fun x hx ↦ hq x (List.mem_cons_of_mem _ hx)) (h.infix_preserve hp hdisjoint hl)

theorem eq_of_disjoint (h : Rewritten rules l out)
    (hout : ∀ rule ∈ rules, rule.2 ≠ [] ∧ out.Disjoint rule.2) : out = l := by
  induction h with
  | nil l => rfl
  | cons h hrest ih =>
    obtain ⟨hr, hdisjoint⟩ := hout _ (List.mem_cons_self ..)
    obtain rfl := ih fun x hx ↦ hout x (List.mem_cons_of_mem _ hx)
    exact h.eq_of_disjoint hr hdisjoint

theorem not_occurs (h : Rewritten rules l out) (hrules : Settling rules) :
    ∀ rule ∈ rules, ¬ rule.1 <:+: out := by
  induction h with
  | nil l => exact fun rule hrule ↦ absurd hrule List.not_mem_nil
  | @cons p r l mid out rules h hrest ih =>
    intro rule hrule
    rcases List.mem_cons.mp hrule with rfl | hrule
    · obtain ⟨hp, hr⟩ := hrules.ne_nil _ (List.mem_cons_self ..)
      have hmid := h.not_occurs hp hr (hrules.disjoint _ (List.mem_cons_self ..))
      refine fun hout ↦ hmid (hrest.infix_reflect (fun x hx ↦ ⟨?_, ?_⟩) hout)
      · exact (hrules.tail.ne_nil x hx).2
      · exact (List.pairwise_cons.mp hrules.later).1 x hx
    · exact ih hrules.tail rule hrule

end Rewritten

end NemoRL.Foundations.Rewriting
