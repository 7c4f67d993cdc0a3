import Mathlib
import NemoRL.Foundations.Blocks
import NemoRL.Foundations.Dicts
import NemoRL.Foundations.Positions

namespace NemoRL.Foundations.Classes

open Blocks

variable {α β : Type*}

section Uniform

variable {key : α → β} {l p rest : List α} {m : ℕ}

def Uniform (key : α → β) (l : List α) : Prop := ∀ x ∈ l, ∀ y ∈ l, key x = key y

theorem Uniform.subset {l' : List α} (h : Uniform key l) (hsub : l' ⊆ l) : Uniform key l' :=
  fun x hx y hy ↦ h x (hsub hx) y (hsub hy)

theorem block_sublist (m : ℕ) (l : List α) (i : ℕ) : (block m l i).Sublist l := by
  rw [block_eq]
  exact (List.take_sublist ..).trans (List.drop_sublist ..)

theorem uniform_block_append (hm : m ∣ p.length) (hp : Uniform key p)
    (hrest : ∀ i, Uniform key (block m rest i)) (i : ℕ) : Uniform key (block m (p ++ rest) i) := by
  obtain ⟨k, hk⟩ := hm
  rcases Nat.lt_or_ge i k with hi | hi
  · have hle : i * m + m ≤ p.length := by
      have h := Nat.mul_le_mul_right m (Nat.succ_le_of_lt hi)
      rw [Nat.succ_mul] at h
      rw [hk, Nat.mul_comm m k]
      exact h
    refine hp.subset fun x hx ↦ ?_
    rw [block_eq, List.drop_append_of_le_length (by omega),
      List.take_append_of_le_length (by rw [List.length_drop]; omega)] at hx
    exact List.mem_of_mem_drop (List.mem_of_mem_take hx)
  · obtain ⟨j, rfl⟩ := Nat.exists_eq_add_of_le hi
    have hpos : (k + j) * m = p.length + j * m := by rw [hk]; ring
    rw [block_eq, hpos, ← List.drop_drop, List.drop_left, ← block_eq]
    exact hrest j

/-- Uniform parts of sizes that `m` divides are cut by `m` into uniform blocks. -/
theorem uniform_block_flatten {parts : List (List α)}
    (h : ∀ p ∈ parts, m ∣ p.length ∧ Uniform key p) (i : ℕ) :
    Uniform key (block m parts.flatten i) := by
  induction parts generalizing i with
  | nil =>
    intro x hx
    exact absurd ((block_sublist m [] i).subset hx) List.not_mem_nil
  | cons p parts ih =>
    obtain ⟨hm, hp⟩ := h p List.mem_cons_self
    exact uniform_block_append hm hp (fun j ↦ ih (fun q hq ↦ h q (List.mem_cons_of_mem _ hq)) j) i

theorem countP_of_uniform [DecidableEq β] (h : Uniform key p) (b : β) :
    p.countP (key · = b) = 0 ∨ p.countP (key · = b) = p.length := by
  by_cases hb : ∃ x ∈ p, key x = b
  · obtain ⟨x, hx, rfl⟩ := hb
    exact .inr (List.countP_eq_length.mpr fun y hy ↦ by simpa using h y hy x hx)
  · exact .inl (List.countP_eq_zero.mpr fun y hy ↦ by simpa using fun hk ↦ hb ⟨y, hy, hk⟩)

theorem dvd_countP_of_forall_mem [DecidableEq β] (h : ∀ x ∈ l, m ∣ l.countP (key · = key x))
    (b : β) : m ∣ l.countP (key · = b) := by
  by_cases hb : ∃ x ∈ l, key x = b
  · obtain ⟨x, hx, rfl⟩ := hb
    exact h x hx
  · rw [List.countP_eq_zero.mpr fun y hy ↦ by simpa using fun hk ↦ hb ⟨y, hy, hk⟩]
    exact dvd_zero m

theorem dvd_countP_flatten [DecidableEq β] {parts : List (List α)}
    (h : ∀ p ∈ parts, m ∣ p.length ∧ Uniform key p) (b : β) :
    m ∣ parts.flatten.countP (key · = b) := by
  induction parts with
  | nil => exact dvd_zero m
  | cons p parts ih =>
    obtain ⟨hm, hp⟩ := h p List.mem_cons_self
    rw [List.flatten_cons, List.countP_append]
    refine dvd_add ?_ (ih fun q hq ↦ h q (List.mem_cons_of_mem _ hq))
    rcases countP_of_uniform hp b with hzero | hall
    · rw [hzero]
      exact dvd_zero m
    · rw [hall]
      exact hm

end Uniform

section Sorted

variable [LinearOrder β] {key : α → β} {l : List α} {m : ℕ}

/-- A sorted list starts with the entries of its least key. -/
theorem filter_append_filter_of_sorted {b : β} (hs : l.Pairwise fun x y ↦ key x ≤ key y)
    (hb : ∀ x ∈ l, b ≤ key x) : l.filter (key · = b) ++ l.filter (key · ≠ b) = l := by
  induction l with
  | nil => rfl
  | cons a l ih =>
    obtain ⟨ha, hs⟩ := List.pairwise_cons.mp hs
    by_cases hab : key a = b
    · have hrest := ih hs fun x hx ↦ hb x (List.mem_cons_of_mem _ hx)
      rw [List.filter_cons_of_pos (by simpa using hab),
        List.filter_cons_of_neg (by simpa using hab), List.cons_append, hrest]
    · have hlt := lt_of_le_of_ne (hb a List.mem_cons_self) (Ne.symm hab)
      have hne : ∀ x ∈ a :: l, key x ≠ b := by
        intro x hx
        rcases List.mem_cons.mp hx with rfl | hx
        · exact hab
        · exact (hlt.trans_le (ha x hx)).ne'
      rw [List.filter_eq_nil_iff.mpr fun x hx ↦ by simpa using hne x hx,
        List.filter_eq_self.mpr fun x hx ↦ by simpa using hne x hx]
      rfl

/-- A sorted list in which `m` divides the size of every class is cut by `m` into
uniform blocks. -/
theorem uniform_block_of_sorted (hs : l.Pairwise fun x y ↦ key x ≤ key y)
    (hm : ∀ b, m ∣ l.countP (key · = b)) (i : ℕ) : Uniform key (block m l i) := by
  -- by induction on the length: the first class is a part of its own
  obtain ⟨n, hn⟩ : ∃ n, l.length = n := ⟨_, rfl⟩
  induction n using Nat.strong_induction_on generalizing l i with
  | _ n ih =>
    cases l with
    | nil =>
      intro x hx
      exact absurd ((block_sublist m [] i).subset hx) List.not_mem_nil
    | cons a l =>
      have hmin : ∀ x ∈ a :: l, key a ≤ key x := by
        intro x hx
        rcases List.mem_cons.mp hx with rfl | hx
        · exact le_rfl
        · exact (List.pairwise_cons.mp hs).1 x hx
      have hparts := filter_append_filter_of_sorted hs hmin
      have hclass : ((a :: l).filter (key · = key a)).length =
          (a :: l).countP (key · = key a) := List.countP_eq_length_filter.symm
      rw [← hparts]
      refine uniform_block_append ?_ ?_ (fun j ↦ ?_) i
      · rw [hclass]
        exact hm (key a)
      · intro x hx y hy
        have hx' : key x = key a := by simpa using (List.mem_filter.mp hx).2
        have hy' : key y = key a := by simpa using (List.mem_filter.mp hy).2
        rw [hx', hy']
      · refine ih _ ?_ (hs.sublist List.filter_sublist) (fun b ↦ ?_) j rfl
        · have hpos : 0 < ((a :: l).filter (key · = key a)).length :=
            List.length_pos_of_mem (List.mem_filter.mpr ⟨List.mem_cons_self, by simp⟩)
          have hlen := congrArg List.length hparts
          rw [List.length_append] at hlen
          omega
        · rw [List.countP_filter]
          by_cases hb : b = key a
          · have hnone : (a :: l).countP (fun x ↦ decide (key x = b) && decide (key x ≠ key a)) =
                0 := List.countP_eq_zero.mpr fun x _ ↦ by simp [hb]
            rw [hnone]
            exact dvd_zero m
          · have hsame : (a :: l).countP (fun x ↦ decide (key x = b) && decide (key x ≠ key a)) =
                (a :: l).countP (key · = b) := by
              refine List.countP_congr fun x _ ↦ ?_
              simp only [Bool.and_eq_true, decide_eq_true_eq, and_iff_left_iff_imp]
              intro hx
              rw [hx]
              exact hb
            rw [hsame]
            exact hm b

def sortBy (key : α → β) (l : List α) : List α := l.mergeSort fun x y ↦ decide (key x ≤ key y)

theorem sortBy_perm (key : α → β) (l : List α) : (sortBy key l).Perm l := List.mergeSort_perm ..

theorem pairwise_sortBy (key : α → β) (l : List α) :
    (sortBy key l).Pairwise fun x y ↦ key x ≤ key y := by
  have h : (sortBy key l).Pairwise fun x y ↦ decide (key x ≤ key y) = true := by
    refine List.pairwise_mergeSort (fun x y z hxy hyz ↦ ?_) (fun x y ↦ ?_) l
    · simp only [decide_eq_true_eq] at hxy hyz ⊢
      exact hxy.trans hyz
    · simpa using le_total (key x) (key y)
  exact h.imp fun hxy ↦ by simpa using hxy

/-- The positions of scattered entries, sorted by their origin, read the list again. -/
theorem mapM_sortBy_origin {γ : Type*} {l : List α} {done : List (α × ℕ)}
    (h : done.Perm l.zipIdx) (f : α → γ) :
    (sortBy ((done.map Prod.snd).getD · 0) (List.range done.length)).mapM
      ((done.map fun x ↦ f x.1)[·]?) = some (l.map f) := by
  set origin : ℕ → ℕ := ((done.map Prod.snd).getD · 0)
  set order := sortBy origin (List.range done.length)
  have hlen : done.length = l.length := by rw [h.length_eq, List.length_zipIdx]
  have hperm : order.Perm (List.range done.length) := sortBy_perm ..
  have horigin : (List.range done.length).map origin = done.map Prod.snd := by
    refine List.ext_getElem? fun i ↦ ?_
    rw [List.getElem?_map, List.getElem?_map]
    rcases Nat.lt_or_ge i done.length with hi | hi
    · simp [origin, hi]
    · simp [hi]
  have hsorted : order.map origin = List.range l.length := by
    refine List.Perm.eq_of_pairwise (fun a b _ _ h₁ h₂ ↦ le_antisymm h₁ h₂)
      (List.pairwise_map.mpr (pairwise_sortBy ..)) (List.pairwise_le_range) ?_
    rw [List.range_eq_range', ← List.zipIdx_map_snd]
    exact ((hperm.map origin).trans (horigin ▸ List.Perm.refl _)).trans (h.map Prod.snd)
  refine Positions.mapM_eq_some (List.forall₂_iff_get.mpr ⟨?_, fun i h₁ h₂ ↦ ?_⟩)
  · rw [List.length_map, hperm.length_eq, List.length_range, hlen]
  · have hlt : order[i] < done.length :=
      List.mem_range.mp (hperm.mem_iff.mp (List.getElem_mem h₁))
    have hi : done[order[i]].2 = i := by
      have hget : (order.map origin)[i]? = some (origin order[i]) := by simp [h₁]
      have hil : i < l.length := by simpa using h₂
      rw [hsorted, List.getElem?_range hil] at hget
      simpa [origin, hlt] using (Option.some.inj hget).symm
    have hmem : (done[order[i]].1, done[order[i]].2) ∈ l.zipIdx :=
      h.mem_iff.mp (List.getElem_mem hlt)
    have hrow : l[i]? = some done[order[i]].1 := by
      rw [← List.mem_zipIdx_iff_getElem?.mp hmem, hi]
    have hread : (l.map f)[i]? = some (f done[order[i]].1) := by
      rw [List.getElem?_map, hrow]
      rfl
    rw [List.getElem?_eq_getElem h₂] at hread
    rw [List.get_eq_getElem, List.get_eq_getElem, Option.some.inj hread, List.getElem?_map,
      List.getElem?_eq_getElem hlt]
    rfl

end Sorted

section Groups

variable [DecidableEq β] {key : α → β} {l : List α}

theorem length_eq_of_classes {ks : List β} {m : ℕ} (hks : ks.Nodup)
    (hmem : ∀ x ∈ l, key x ∈ ks) (hc : ∀ k ∈ ks, l.countP (key · = k) = m) :
    l.length = ks.length * m := by
  induction ks generalizing l with
  | nil =>
    obtain rfl : l = [] := List.eq_nil_iff_forall_not_mem.mpr fun x hx ↦
      List.not_mem_nil (hmem x hx)
    simp
  | cons k ks ih =>
    obtain ⟨hk, hks⟩ := List.nodup_cons.mp hks
    have hsplit : l.length = l.countP (key · = k) + (l.filter (key · ≠ k)).length := by
      rw [← List.countP_eq_length_filter, List.length_eq_countP_add_countP (key · = k)]
      congr 1
      exact List.countP_congr fun x _ ↦ by simp
    rw [hsplit, hc k List.mem_cons_self, ih hks, List.length_cons]
    · ring
    · intro x hx
      obtain ⟨hx, hne⟩ := List.mem_filter.mp hx
      exact (List.mem_cons.mp (hmem x hx)).resolve_left (by simpa using hne)
    · intro k' hk'
      rw [← hc k' (List.mem_cons_of_mem _ hk'), List.countP_filter]
      refine List.countP_congr fun x _ ↦ ?_
      simp only [Bool.and_eq_true, decide_eq_true_eq, and_iff_left_iff_imp]
      rintro rfl heq
      exact hk (heq ▸ hk')

/-- The entries by key, the keys in the order in which they are first seen. -/
def groupBy (key : α → β) (l : List α) : Dict β (List α) :=
  l.foldl (fun d a ↦ Dict.set d (key a) ((Dict.get d (key a)).getD [] ++ [a])) []

theorem groupBy_concat (key : α → β) (l : List α) (a : α) :
    groupBy key (l ++ [a]) = Dict.set (groupBy key l) (key a)
      ((Dict.get (groupBy key l) (key a)).getD [] ++ [a]) := by
  rw [groupBy, List.foldl_append]
  rfl

theorem groupBy_map {γ : Type*} (key : α → β) (f : γ → α) (l : List γ) :
    groupBy key (l.map f) = (groupBy (key ∘ f) l).map fun item ↦ (item.1, item.2.map f) := by
  induction l using List.reverseRecOn with
  | nil => rfl
  | append_singleton l a ih =>
    have hval : ((Dict.get (groupBy (key ∘ f) l) (key (f a))).map (·.map f)).getD [] ++ [f a] =
        ((Dict.get (groupBy (key ∘ f) l) (key (f a))).getD [] ++ [a]).map f := by
      cases Dict.get (groupBy (key ∘ f) l) (key (f a)) with
      | none => rfl
      | some g => simp
    rw [List.map_append, List.map_singleton, groupBy_concat, groupBy_concat, ih, Dict.get_map, hval,
      Dict.set_map]
    rfl

theorem keys_set_of_mem {ν : Type*} {d : Dict β ν} {k : β} (v : ν) (h : k ∈ d.map Prod.fst) :
    (Dict.set d k v).map Prod.fst = d.map Prod.fst := by
  induction d with
  | nil => exact absurd h List.not_mem_nil
  | cons item d ih =>
    rw [Dict.set]
    by_cases hk : item.1 = k
    · rw [if_pos hk, List.map_cons, List.map_cons, hk]
    · rw [List.map_cons, List.mem_cons] at h
      rw [if_neg hk, List.map_cons, List.map_cons, ih (h.resolve_left (Ne.symm hk))]

theorem mem_keys_groupBy {b : β} : b ∈ (groupBy key l).map Prod.fst ↔ b ∈ l.map key := by
  induction l using List.reverseRecOn with
  | nil => rfl
  | append_singleton l a ih =>
    rw [groupBy_concat, Dict.mem_keys_set, ih, List.map_append, List.mem_append, or_comm]
    simp

theorem nodup_keys_groupBy (key : α → β) (l : List α) : ((groupBy key l).map Prod.fst).Nodup := by
  induction l using List.reverseRecOn with
  | nil => exact List.nodup_nil
  | append_singleton l a ih =>
    rw [groupBy_concat]
    by_cases h : key a ∈ (groupBy key l).map Prod.fst
    · rw [keys_set_of_mem _ h]
      exact ih
    · rw [Dict.keys_set_of_not_mem h]
      exact List.nodup_append.mpr ⟨ih, List.nodup_singleton _, fun b hb c hc hbc ↦
        h (List.mem_singleton.mp hc ▸ hbc ▸ hb)⟩

theorem get_groupBy (key : α → β) (l : List α) (b : β) :
    Dict.get (groupBy key l) b =
      if b ∈ l.map key then some (l.filter (key · = b)) else none := by
  induction l using List.reverseRecOn with
  | nil => rfl
  | append_singleton l a ih =>
    have hold : (Dict.get (groupBy key l) b).getD [] = l.filter (key · = b) := by
      rw [ih]
      split_ifs with h
      · rfl
      · refine (List.filter_eq_nil_iff.mpr fun x hx ↦ ?_).symm
        simpa using fun hxb ↦ h (List.mem_map.mpr ⟨x, hx, hxb⟩)
    rw [groupBy_concat, Dict.get_set, List.map_append, List.filter_append]
    by_cases hb : b = key a
    · rw [if_pos hb, ← hb, hold, if_pos (by simp [hb])]
      simp [hb]
    · have hmem : b ∈ l.map key ++ [a].map key ↔ b ∈ l.map key := by simp [hb]
      have hnone : [a].filter (key · = b) = [] := by simp [Ne.symm hb]
      rw [if_neg hb, ih, hnone, List.append_nil]
      simp only [hmem]

theorem get_of_mem {ν : Type*} {d : Dict β ν} {k : β} {v : ν} (hd : (d.map Prod.fst).Nodup)
    (h : (k, v) ∈ d) : Dict.get d k = some v := by
  induction d with
  | nil => exact absurd h List.not_mem_nil
  | cons item d ih =>
    obtain ⟨hitem, hd⟩ := List.nodup_cons.mp hd
    rw [Dict.get_cons]
    rcases List.mem_cons.mp h with rfl | h
    · rw [if_pos rfl]
    · have hmem : k ∈ d.map Prod.fst := List.mem_map_of_mem h
      rw [if_neg fun hk : k = item.1 ↦ hitem (hk ▸ hmem)]
      exact ih hd h

theorem mem_groupBy {b : β} {g : List α} (h : (b, g) ∈ groupBy key l) :
    b ∈ l.map key ∧ g = l.filter (key · = b) := by
  have hb : b ∈ l.map key := mem_keys_groupBy.mp (List.mem_map_of_mem h)
  refine ⟨hb, ?_⟩
  have hget : Dict.get (groupBy key l) b = some g :=
    get_of_mem (nodup_keys_groupBy key l) h
  rw [get_groupBy, if_pos hb] at hget
  exact (Option.some.inj hget).symm

theorem flatMap_set_perm (d : Dict β (List α)) (k : β) (a : α) :
    ((Dict.set d k ((Dict.get d k).getD [] ++ [a])).flatMap Prod.snd).Perm
      (a :: d.flatMap Prod.snd) := by
  induction d with
  | nil => exact List.Perm.refl _
  | cons item d ih =>
    rw [Dict.set, Dict.get_cons]
    by_cases hk : item.1 = k
    · rw [if_pos hk, if_pos hk.symm, List.flatMap_cons, List.flatMap_cons, Option.getD_some,
        List.append_assoc]
      exact List.perm_middle
    · rw [if_neg hk, if_neg (Ne.symm hk), List.flatMap_cons, List.flatMap_cons]
      exact (ih.append_left _).trans List.perm_middle

theorem groupBy_perm (key : α → β) (l : List α) : ((groupBy key l).flatMap Prod.snd).Perm l := by
  induction l using List.reverseRecOn with
  | nil => exact List.Perm.refl _
  | append_singleton l a ih =>
    rw [groupBy_concat]
    exact ((flatMap_set_perm _ _ a).trans (ih.cons a)).trans (List.perm_append_singleton a l).symm

end Groups

end NemoRL.Foundations.Classes
