import Mathlib

namespace NemoRL.Foundations.Tilings

variable {α : Type*}

section Preorder

variable [Preorder α]

/-- Half-open spans, none of them empty, end to end from `lo` to `hi`. -/
def Tiles : α → List (α × α) → α → Prop
  | lo, [], hi => lo = hi
  | lo, (a, b) :: spans, hi => a = lo ∧ a < b ∧ Tiles b spans hi

variable {lo mid hi : α} {spans spans' : List (α × α)}

theorem tiles_append :
    Tiles lo (spans ++ spans') hi ↔ ∃ mid, Tiles lo spans mid ∧ Tiles mid spans' hi := by
  induction spans generalizing lo with
  | nil =>
    constructor
    · intro h
      exact ⟨lo, rfl, h⟩
    · rintro ⟨mid, rfl, h⟩
      exact h
  | cons x spans ih =>
    obtain ⟨a, b⟩ := x
    constructor
    · rintro ⟨ha, hab, h⟩
      obtain ⟨mid, hl, hr⟩ := ih.mp h
      exact ⟨mid, ⟨ha, hab, hl⟩, hr⟩
    · rintro ⟨mid, ⟨ha, hab, hl⟩, hr⟩
      exact ⟨ha, hab, ih.mpr ⟨mid, hl, hr⟩⟩

theorem Tiles.le (h : Tiles lo spans hi) : lo ≤ hi := by
  induction spans generalizing lo with
  | nil => exact h.le
  | cons x spans ih =>
    obtain ⟨rfl, hab, hrest⟩ := h
    exact hab.le.trans (ih hrest)

theorem Tiles.lt (h : Tiles lo spans hi) (hne : spans ≠ []) : lo < hi := by
  cases spans with
  | nil => exact absurd rfl hne
  | cons x spans =>
    obtain ⟨rfl, hab, hrest⟩ := h
    exact hab.trans_le hrest.le

theorem lt_of_mem_tiles (h : Tiles lo spans hi) {x : α × α} (hx : x ∈ spans) : x.1 < x.2 := by
  induction spans generalizing lo with
  | nil => cases hx
  | cons y spans ih =>
    obtain ⟨-, hlt, hrest⟩ := h
    rcases List.mem_cons.mp hx with rfl | hx
    · exact hlt
    · exact ih hrest hx

theorem Tiles.snd_le (h : Tiles lo spans hi) {x : α × α} (hx : x ∈ spans) : x.2 ≤ hi := by
  induction spans generalizing lo with
  | nil => cases hx
  | cons y spans ih =>
    obtain ⟨-, -, hrest⟩ := h
    rcases List.mem_cons.mp hx with rfl | hx
    · exact hrest.le
    · exact ih hrest hx

theorem Tiles.head {x : α × α} (h : Tiles lo (x :: spans) hi) : x.1 = lo := h.1

theorem Tiles.getLast {x d : α × α} (h : Tiles lo (x :: spans) hi) :
    ((x :: spans).getLastD d).2 = hi := by
  induction spans generalizing lo x d with
  | nil => exact h.2.2
  | cons y spans ih =>
    obtain ⟨-, -, hrest⟩ := h
    rw [List.getLastD_cons]
    exact ih hrest

theorem Tiles.exists_bound (h : Tiles lo spans hi) :
    ∃ bound : ℕ → α, bound 0 = lo ∧ bound spans.length = hi ∧ ∀ k x, spans[k]? = some x →
      x = (bound k, bound (k + 1)) ∧ bound k < bound (k + 1) := by
  induction spans generalizing lo with
  | nil =>
    refine ⟨fun _ ↦ lo, rfl, h, ?_⟩
    intro k x hx
    cases hx
  | cons x spans ih =>
    obtain ⟨rfl, hab, hrest⟩ := h
    obtain ⟨bound, hzero, hlast, hspan⟩ := ih hrest
    refine ⟨fun k ↦ k.casesOn x.1 bound, rfl, hlast, ?_⟩
    intro k y hy
    cases k with
    | zero =>
      obtain rfl := Option.some.inj hy
      refine ⟨Prod.ext rfl hzero.symm, ?_⟩
      show x.1 < bound 0
      rw [hzero]
      exact hab
    | succ k => exact hspan k y hy

theorem bound_lt {bound : ℕ → α} {n : ℕ} (h : ∀ k < n, bound k < bound (k + 1)) {i j : ℕ}
    (hij : i < j) (hj : j ≤ n) : bound i < bound j := by
  induction j with
  | zero => omega
  | succ j ih =>
    have hstep := h j (by omega)
    rcases Nat.lt_or_ge i j with hlt | hge
    · exact (ih hlt (by omega)).trans hstep
    · obtain rfl : i = j := by omega
      exact hstep

end Preorder

section LinearOrder

variable [LinearOrder α] {lo hi : α} {spans : List (α × α)}

/-- Nothing before the tiling is in a span of it. -/
theorem Tiles.le_of_mem (h : Tiles lo spans hi) {x : α × α} (hx : x ∈ spans) : lo ≤ x.1 := by
  induction spans generalizing lo with
  | nil => cases hx
  | cons y spans ih =>
    obtain ⟨rfl, hab, hrest⟩ := h
    rcases List.mem_cons.mp hx with rfl | hx
    · exact le_rfl
    · exact hab.le.trans (ih hrest hx)

theorem Tiles.countP (h : Tiles lo spans hi) {p : α} (hlo : lo ≤ p) (hhi : p < hi) :
    (spans.countP fun x ↦ x.1 ≤ p ∧ p < x.2) = 1 := by
  induction spans generalizing lo with
  | nil =>
    obtain rfl : lo = hi := h
    exact absurd hhi (not_lt.mpr hlo)
  | cons x spans ih =>
    obtain ⟨rfl, hab, hrest⟩ := h
    rw [List.countP_cons]
    by_cases hp : p < x.2
    · have hnone : (spans.countP fun x ↦ x.1 ≤ p ∧ p < x.2) = 0 := by
        apply List.countP_eq_zero.mpr
        intro y hy
        have hle := hrest.le_of_mem hy
        simp only [decide_eq_true_eq, not_and, not_lt]
        intro hyp
        exact absurd (hle.trans hyp) (not_le.mpr hp)
      rw [hnone, if_pos (by simpa using ⟨hlo, hp⟩)]
    · rw [ih hrest (not_lt.mp hp), if_neg (by simp [hp])]

end LinearOrder

end NemoRL.Foundations.Tilings
