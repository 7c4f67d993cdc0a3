import Mathlib
import NemoRL.Foundations.Positions

namespace NemoRL.Foundations.ActiveRows

open Positions

variable {α β γ : Type*}

/-- Combine the values into the entries at the given positions, one after the other. -/
def modifyAt (f : α → β → α) (idxs : List ℕ) (vals : List β) (l : List α) : List α :=
  (idxs.zip vals).foldl (fun l e ↦ l.modify e.1 (f · e.2)) l

section ModifyAt

variable {f : α → β → α} {p : α → Bool} {l : List α} {idxs : List ℕ} {vals : List β}

theorem indicesWhere_cons (p : α → Bool) (a : α) (l : List α) :
    indicesWhere p (a :: l) =
      if p a then 0 :: (indicesWhere p l).map (· + 1) else (indicesWhere p l).map (· + 1) := by
  have hmap : ((l.zipIdx 1).filter fun x ↦ p x.1).map Prod.snd =
      (indicesWhere p l).map (· + 1) := by
    rw [List.zipIdx_succ, indicesWhere, List.filter_map, List.map_map, List.map_map]
    rfl
  rw [indicesWhere, List.zipIdx_cons, List.filter_cons]
  split_ifs with h
  · rw [List.map_cons, ← hmap]
  · exact hmap

theorem modifyAt_succ (f : α → β → α) (idxs : List ℕ) (vals : List β) (a : α) (l : List α) :
    modifyAt f (idxs.map (· + 1)) vals (a :: l) = a :: modifyAt f idxs vals l := by
  induction idxs generalizing vals l with
  | nil => rfl
  | cons i idxs ih =>
    cases vals with
    | nil => rfl
    | cons v vals => exact ih vals (l.modify i (f · v))

theorem modifyAt_zero (f : α → β → α) (idxs : List ℕ) (v : β) (vals : List β) (a : α)
    (l : List α) : modifyAt f (0 :: idxs.map (· + 1)) (v :: vals) (a :: l) =
      f a v :: modifyAt f idxs vals l :=
  modifyAt_succ f idxs vals (f a v) l

theorem mapM_congr {f g : α → Option β} {l : List α} (h : ∀ a ∈ l, f a = g a) :
    l.mapM f = l.mapM g := by
  induction l with
  | nil => rfl
  | cons a l ih =>
    obtain ⟨ha, hl⟩ := List.forall_mem_cons.mp h
    rw [List.mapM_cons, List.mapM_cons, ha, ih hl]

theorem mapM_active (p : α → Bool) (g : α → Option α) (l : List α) :
    (l.mapM fun a ↦ if p a then g a else some a) =
      ((l.filter p).mapM g).map fun vals ↦ modifyAt (fun _ v ↦ v) (indicesWhere p l) vals l := by
  induction l with
  | nil => rfl
  | cons a l ih =>
    rw [List.mapM_cons, ih, List.filter_cons, indicesWhere_cons]
    by_cases h : p a = true
    · simp only [h, if_true, List.mapM_cons]
      cases g a with
      | none => rfl
      | some b =>
        cases (l.filter p).mapM g with
        | none => rfl
        | some vals => exact congrArg some (modifyAt_zero (fun _ v ↦ v) _ b vals a l).symm
    · simp only [h, Bool.false_eq_true, if_false]
      cases (l.filter p).mapM g with
      | none => rfl
      | some vals => exact congrArg some (modifyAt_succ (fun _ v ↦ v) _ vals a l).symm

theorem map_modifyAt {h : α → γ} {k : γ → β → γ} {news : List α} {vals : List β}
    (hl : List.Forall₂ (fun x y ↦ h y = k (h x.1) x.2) ((l.filter p).zip vals) news)
    (hlen : vals.length = (l.filter p).length) :
    modifyAt k (indicesWhere p l) vals (l.map h) =
      (modifyAt (fun _ v ↦ v) (indicesWhere p l) news l).map h := by
  induction l generalizing news vals with
  | nil => rfl
  | cons a l ih =>
    rw [indicesWhere_cons, List.map_cons]
    by_cases hp : p a = true
    · simp only [hp, if_true, List.filter_cons] at hl hlen ⊢
      cases vals with
      | nil => exact absurd hlen (by simp)
      | cons v vals =>
        rw [List.zip_cons_cons] at hl
        cases hl with
        | cons hb hl =>
          rw [modifyAt_zero, modifyAt_zero, List.map_cons, hb, ih hl (by simpa using hlen)]
    · simp only [hp, Bool.false_eq_true, if_false, List.filter_cons] at hl hlen ⊢
      rw [modifyAt_succ, modifyAt_succ, List.map_cons, ih hl hlen]

theorem indicesWhere_modifyAt {q : α → Bool} (hq : ∀ a, p a = false → q a = false)
    {news : List α} (hlen : news.length = (l.filter p).length) :
    indicesWhere q (modifyAt (fun _ v ↦ v) (indicesWhere p l) news l) =
      (((indicesWhere p l).zip news).filter fun x ↦ q x.2).map Prod.fst := by
  have hshift (idxs : List ℕ) (news : List α) :
      (((idxs.map (· + 1)).zip news).filter fun x ↦ q x.2).map Prod.fst =
        (((idxs.zip news).filter fun x ↦ q x.2).map Prod.fst).map (· + 1) := by
    rw [List.zip_map_left, List.filter_map, List.map_map, List.map_map]
    rfl
  induction l generalizing news with
  | nil => rfl
  | cons a l ih =>
    rw [indicesWhere_cons]
    by_cases hp : p a = true
    · simp only [hp, if_true, List.filter_cons] at hlen ⊢
      cases news with
      | nil => exact absurd hlen (by simp)
      | cons b news =>
        rw [modifyAt_zero, indicesWhere_cons, ih (by simpa using hlen), List.zip_cons_cons,
          List.filter_cons]
        split_ifs with hb
        · rw [List.map_cons, hshift]
        · rw [hshift]
    · simp only [hp, Bool.false_eq_true, if_false, List.filter_cons] at hlen ⊢
      rw [modifyAt_succ, indicesWhere_cons, hq a (by simpa using hp), ih hlen, hshift]
      rfl

theorem mapM_getElem?_indicesWhere (p : α → Bool) (h : α → γ) (l : List α) :
    (indicesWhere p l).mapM ((l.map h)[·]?) = some ((l.filter p).map h) := by
  induction l with
  | nil => rfl
  | cons a l ih =>
    have htail : ((indicesWhere p l).map (· + 1)).mapM (((a :: l).map h)[·]?) =
        some ((l.filter p).map h) := by
      rw [List.mapM_map, ← ih]
      rfl
    rw [indicesWhere_cons, List.filter_cons]
    split_ifs
    · rw [List.mapM_cons, htail]
      rfl
    · exact htail

end ModifyAt

section Pipelines

/-- Two batched steps that may fail, one after the other, fail and answer as the two steps on
each row. -/
theorem mapM_bind (f : α → Option β) (g : α → β → Option γ) (l : List α) :
    (l.mapM fun a ↦ (f a).bind (g a)) =
      (l.mapM f).bind fun bs ↦ (l.zip bs).mapM fun x ↦ g x.1 x.2 := by
  induction l with
  | nil => rfl
  | cons a l ih =>
    rw [List.mapM_cons, List.mapM_cons, ih]
    cases f a with
    | none => rfl
    | some b =>
      cases l.mapM f with
      | none =>
        cases hg : g a b with
        | none => simp [hg]
        | some c => simp [hg]
      | some bs =>
        simp only [Option.bind_eq_bind, Option.bind_some, Option.pure_def, List.zip_cons_cons,
          List.mapM_cons]

theorem mapM_eq_none {f : α → Option β} {l : List α} {a : α} (ha : a ∈ l) (h : f a = none) :
    l.mapM f = none := by
  induction l with
  | nil => exact absurd ha List.not_mem_nil
  | cons b l ih =>
    rw [List.mapM_cons]
    rcases List.mem_cons.mp ha with rfl | ha
    · rw [h]
      rfl
    · rw [ih ha]
      cases f b <;> rfl

theorem mapM_comp (f : α → Option β) (g : β → Option γ) (l : List α) :
    (l.mapM fun a ↦ (f a).bind g) = (l.mapM f).bind fun bs ↦ bs.mapM g := by
  rw [mapM_bind]
  cases h : l.mapM f with
  | none => rfl
  | some bs =>
    have hlen : l.length = bs.length := (forall₂_of_mapM h).length_eq
    have hsnd : bs = (l.zip bs).map Prod.snd := (List.map_snd_zip hlen.ge).symm
    calc (l.zip bs).mapM (fun x ↦ g x.2) = ((l.zip bs).map Prod.snd).mapM g := List.mapM_map.symm
      _ = bs.mapM g := by rw [← hsnd]

end Pipelines

end NemoRL.Foundations.ActiveRows
