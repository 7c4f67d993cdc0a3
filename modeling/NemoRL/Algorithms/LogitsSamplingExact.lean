import Mathlib
import NemoRL.Algorithms.LogitsSampling
import NemoRL.Foundations.Thresholds

namespace NemoRL.Algorithms.LogitsSampling

open Foundations.Blocks Foundations.Thresholds

section Eligible

variable {L : Type} [LinearOrder L] {V : ℕ}

/-- The entries at least as large as the `k`-th largest: fewer than `k` are larger. All
entries where the top-k filter is off. -/
def eligible (topK : Option ℤ) (row : Row L V) : Finset (Fin V) :=
  Finset.univ.filter fun i ↦ ∀ k ∈ topK, 0 < k →
    ((Finset.univ.filter fun j ↦ row i < row j).card : ℤ) < k

/-- The top-k parameters that are accepted: off, or between one and the vocabulary size. -/
def ValidTopK (V : ℕ) (topK : Option ℤ) : Prop :=
  topK = none ∨ topK = some (-1) ∨ ∃ k : ℕ, topK = some (k : ℤ) ∧ 1 ≤ k ∧ k ≤ V

theorem eligible_of_off {topK : Option ℤ} (h : needTopKFiltering topK = false) (row : Row L V) :
    eligible topK row = Finset.univ := by
  refine Finset.filter_true_of_mem fun i _ k hk hpos ↦ ?_
  rw [Option.mem_def] at hk
  subst hk
  simp [needTopKFiltering, hpos] at h

theorem mem_eligible {k : ℕ} (hk : 1 ≤ k) {row : Row L V} {i : Fin V} :
    i ∈ eligible (some (k : ℤ)) row ↔ (Finset.univ.filter fun j ↦ row i < row j).card < k := by
  simp only [eligible, Finset.mem_filter, Finset.mem_univ, true_and, Option.mem_def,
    Option.some.injEq, forall_eq']
  constructor
  · intro h
    exact_mod_cast h (by omega)
  · intro h _
    exact_mod_cast h

theorem validTopK_cases {topK : Option ℤ} (h : ValidTopK V topK) :
    needTopKFiltering topK = false ∨ ∃ k : ℕ, topK = some (k : ℤ) ∧ 1 ≤ k ∧ k ≤ V := by
  rcases h with rfl | rfl | hk
  · exact .inl rfl
  · exact .inl rfl
  · exact .inr hk

theorem topKOnlyRow_eq {k : ℕ} (hk : 1 ≤ k) (hkV : k ≤ V) (row : Row L V) :
    ∃ keep : Mask V, topKOnlyRow k row = .ok (fillDropped keep row, keep) ∧
      ∀ i, keep i = true ↔ i ∈ eligible (some (k : ℤ)) row := by
  obtain ⟨values, hvalues⟩ : ∃ values, values = (List.ofFn row).mergeSort fun a b ↦ b ≤ a :=
    ⟨_, rfl⟩
  have hperm : values.Perm (List.ofFn row) := hvalues ▸ List.mergeSort_perm _ _
  have hsorted : values.Pairwise (· ≥ ·) := by
    have hpairwise := @List.pairwise_mergeSort (WithBot L) (fun a b ↦ decide (b ≤ a))
      (fun a b c hab hbc ↦ by
        rw [decide_eq_true_iff] at hab hbc ⊢
        exact hbc.trans hab)
      (fun a b ↦ by
        rw [Bool.or_eq_true, decide_eq_true_iff, decide_eq_true_iff]
        exact le_total b a) (List.ofFn row)
    rw [← hvalues] at hpairwise
    exact hpairwise.imp fun h ↦ of_decide_eq_true h
  have hlen : k - 1 < values.length := by
    rw [hperm.length_eq, List.length_ofFn]
    omega
  have hlast : (values.take k).getLast? = some values[k - 1] := by
    rw [List.getLast?_eq_getElem?, List.length_take, Nat.min_eq_left (by omega),
      List.getElem?_take_of_lt (by omega), List.getElem?_eq_getElem hlen]
  refine ⟨fun j ↦ values[k - 1] ≤ row j, ?_, ?_⟩
  · have htopk : topk row k = .ok (values.take k) := by
      rw [topk, if_neg (by omega), ← hvalues]
    have hstep : topKOnlyRow k row =
        (((values.take k).getLast?.elim (.error .indexOutOfRange) .ok : Except FilterError _) >>=
          fun threshold ↦ .ok (fillDropped (fun j ↦ threshold ≤ row j) row,
            fun j ↦ decide (threshold ≤ row j))) := by
      rw [topKOnlyRow, htopk]
      rfl
    rw [hstep, hlast]
    rfl
  · intro i
    have hcount := countP_lt_iff_of_pairwise hsorted hlen (row i)
    rw [hperm.countP_eq, countP_ofFn, Nat.sub_add_cancel hk] at hcount
    simp only [decide_eq_true_eq] at hcount
    rw [decide_eq_true_iff, mem_eligible hk]
    exact hcount.symm

theorem topKKeepMask_eq {k : ℕ} (hk : 1 ≤ k) (hkV : k ≤ V) {row : Row L V}
    {e : Equiv.Perm (Fin V)} (he : Monotone fun j ↦ row (e j)) :
    ∃ keep : Mask V, topKKeepMask (fun j ↦ row (e j)) k = .ok keep ∧
      ∀ j, keep j = true ↔ e j ∈ eligible (some (k : ℤ)) row := by
  have hindex : V - k < V := by omega
  have hgather : gather (fun j ↦ row (e j)) ((V : ℤ) - k) = .ok (row (e ⟨V - k, hindex⟩)) := by
    have hnat : ((V : ℤ) - k).toNat = V - k := by omega
    have hpos : 0 ≤ (V : ℤ) - k ∧ ((V : ℤ) - k).toNat < V := by omega
    rw [gather, dif_pos hpos]
    simp only [hnat]
  refine ⟨fun j ↦ row (e ⟨V - k, hindex⟩) ≤ row (e j), ?_, ?_⟩
  · rw [topKKeepMask, hgather]
    rfl
  · intro j
    rw [decide_eq_true_iff, mem_eligible hk, ← card_lt_comp_perm row e]
    exact (card_lt_iff_of_monotone he hindex hkV _).symm

theorem mem_eligible_of_max (topK : Option ℤ) {row : Row L V} {i : Fin V}
    (hi : ∀ j, row j ≤ row i) : i ∈ eligible topK row := by
  refine Finset.mem_filter.mpr ⟨Finset.mem_univ i, fun k _ hk ↦ ?_⟩
  have hnone : (Finset.univ.filter fun j ↦ row i < row j) = ∅ :=
    Finset.filter_false_of_mem fun j _ ↦ not_lt.mpr (hi j)
  rw [hnone, Finset.card_empty]
  exact hk

end Eligible

section Nucleus

variable {L K : Type} [LinearOrder L] [Field K] {V : ℕ} {weight : L → K} {topK : Option ℤ}
  {topP : K} {row : Row L V}

def total (weight : L → K) (row : Row L V) (s : Finset (Fin V)) : K :=
  ∑ i ∈ s, mass weight (row i)

variable [LinearOrder K]

structure Nucleus (weight : L → K) (topK : Option ℤ) (topP : K) (row : Row L V)
    (kept : Finset (Fin V)) : Prop where
  largest : ∃ i ∈ kept, ∀ j, row j ≤ row i
  subset : kept ⊆ eligible topK row
  mass_le : topP * total weight row (eligible topK row) ≤ total weight row kept
  minimal : ∀ i ∈ kept, (∀ j ∈ kept, row i ≤ row j) → row i ≠ ⊥ →
    total weight row (kept.erase i) < topP * total weight row (eligible topK row)
  finite : topP < 1 → ∀ i ∈ kept, row i ≠ ⊥

omit [LinearOrder L] in
theorem mass_nonneg (hweight : ∀ x, 0 < weight x) (x : WithBot L) : 0 ≤ mass weight x := by
  cases x with
  | bot => exact le_rfl
  | coe x => exact (hweight x).le

omit [LinearOrder L] in
theorem mass_pos (hweight : ∀ x, 0 < weight x) {x : WithBot L} (hx : x ≠ ⊥) :
    0 < mass weight x := by
  cases x with
  | bot => exact absurd rfl hx
  | coe x => exact hweight x

theorem exists_largest {i : Fin V} (hi : row i ≠ ⊥) :
    ∃ m, (∀ j, row j ≤ row m) ∧ row m ≠ ⊥ := by
  obtain ⟨m, -, hm⟩ := Finset.exists_max_image Finset.univ row ⟨i, Finset.mem_univ i⟩
  have hle := hm i (Finset.mem_univ i)
  exact ⟨m, fun j ↦ hm j (Finset.mem_univ j), fun h ↦ hi (le_bot_iff.mp (h ▸ hle))⟩

variable [IsStrictOrderedRing K]

theorem nucleus_eligible (hweight : ∀ x, 0 < weight x) (hrow : ∃ i, row i ≠ ⊥) :
    Nucleus weight topK 1 row (eligible topK row) where
  largest := by
    obtain ⟨i, hi⟩ := hrow
    obtain ⟨m, hm, -⟩ := exists_largest hi
    exact ⟨m, mem_eligible_of_max topK hm, hm⟩
  subset := Finset.Subset.refl _
  mass_le := (one_mul _).le
  minimal := by
    intro i hi _ hfinite
    rw [one_mul, total, total, ← Finset.add_sum_erase _ _ hi]
    exact lt_add_of_pos_left _ (mass_pos hweight hfinite)
  finite := fun h ↦ absurd h (lt_irrefl 1)

end Nucleus

section Rows

variable {L K : Type} [LinearOrder L] [Field K] [LinearOrder K] {V : ℕ}
  {sort : Row L V → Equiv.Perm (Fin V)} {weight : L → K} {topK : Option ℤ} {topP : K}
  {row : Row L V}

/-- The mask of a sorted row, at the places that the row was sorted from. -/
def unsort (e : Equiv.Perm (Fin V)) (keep : Mask V) : Mask V := fun i ↦ keep (e.symm i)

omit [LinearOrder L] in
theorem fillDropped_all (row : Row L V) : fillDropped (fun _ ↦ true) row = row := rfl

omit [LinearOrder L] in
theorem fillDropped_unsort (e : Equiv.Perm (Fin V)) (row : Row L V) (keep keep' : Mask V) :
    (fun i ↦ fillDropped keep' (fillDropped keep fun j ↦ row (e j)) (e.symm i)) =
      fillDropped (unsort e fun j ↦ keep j && keep' j) row := by
  funext i
  simp only [fillDropped, unsort, e.apply_symm_apply]
  by_cases hkeep : keep (e.symm i) = true
  · simp only [hkeep, if_true, Bool.true_and]
  · simp only [hkeep, Bool.false_eq_true, if_false, ite_self, Bool.false_and]

/-- The mask of a row of the sorted path, from the mask of its eligible entries. -/
def sortedMask (sort : Row L V → Equiv.Perm (Fin V)) (weight : L → K) (topP : K) (row : Row L V)
    (keep : Mask V) : Mask V := fun j ↦
  keep j && topPKeepMask weight (fillDropped keep fun j ↦ row (sort row j)) topP j

theorem filterRow_eq (hsort : Monotone fun j ↦ row (sort row j)) (hk : ValidTopK V topK) :
    ∃ keep : Mask V, (∀ j, keep j = true ↔ sort row j ∈ eligible topK row) ∧
      filterRow sort weight topK topP row = .ok
        (fillDropped (unsort (sort row) (sortedMask sort weight topP row keep)) row,
          unsort (sort row) (sortedMask sort weight topP row keep)) := by
  rcases validTopK_cases hk with hoff | ⟨k, rfl, hk, hkV⟩
  · refine ⟨fun _ ↦ true, ?_, ?_⟩
    · intro j
      simp [eligible_of_off hoff]
    · have hfill := fillDropped_unsort (sort row) row (fun _ ↦ true)
        (topPKeepMask weight (fun j ↦ row (sort row j)) topP)
      simp only [filterRow, hoff]
      change Except.ok _ = _
      simp only [scatter_perm, Option.elim_none]
      exact congrArg Except.ok (Prod.ext hfill rfl)
  · obtain ⟨keep, hkeep, helig⟩ := topKKeepMask_eq hk hkV hsort
    refine ⟨keep, helig, ?_⟩
    have hon : needTopKFiltering (some (k : ℤ)) = true := by
      rw [needTopKFiltering, Option.any_some, decide_eq_true_iff]
      omega
    have hfill := fillDropped_unsort (sort row) row keep
      (topPKeepMask weight (fillDropped keep fun j ↦ row (sort row j)) topP)
    simp only [filterRow, hon, if_true, Option.getD_some, hkeep]
    change Except.ok _ = _
    simp only [scatter_perm, Option.elim_some]
    exact congrArg Except.ok (Prod.ext hfill rfl)

variable [IsStrictOrderedRing K]

def sortedMass (sort : Row L V → Equiv.Perm (Fin V)) (weight : L → K) (row : Row L V)
    (keep : Mask V) (j : Fin V) : K := mass weight (fillDropped keep (fun j ↦ row (sort row j)) j)

omit [IsStrictOrderedRing K] [LinearOrder K] [LinearOrder L] in
theorem sortedMass_eq (keep : Mask V) (j : Fin V) :
    sortedMass sort weight row keep j = if keep j then mass weight (row (sort row j)) else 0 :=
  apply_ite (mass weight) _ _ _

omit [IsStrictOrderedRing K] [LinearOrder K] [LinearOrder L] in
theorem sum_sortedMass (keep : Mask V) (s : Finset (Fin V)) :
    ∑ j ∈ s, sortedMass sort weight row keep j =
      total weight row ((s.filter fun j ↦ keep j).map (sort row).toEmbedding) := by
  rw [total, Finset.sum_map, Finset.sum_filter]
  exact Finset.sum_congr rfl fun j _ ↦ sortedMass_eq keep j

theorem eligible_eq_map {keep : Mask V} (hkeep : ∀ j, keep j = true ↔ sort row j ∈ eligible topK row) :
    eligible topK row =
      (Finset.univ.filter fun j ↦ keep j).map (sort row).toEmbedding := by
  ext i
  simp only [Finset.mem_map, Finset.mem_filter, Finset.mem_univ, true_and, hkeep]
  constructor
  · intro hi
    exact ⟨(sort row).symm i, by rwa [(sort row).apply_symm_apply], (sort row).apply_symm_apply i⟩
  · rintro ⟨j, hj, rfl⟩
    exact hj

omit [LinearOrder L] in
/-- The nucleus of a sorted row is where the running mass has passed the rest of the fraction. -/
theorem topPKeepMask_iff {keep : Mask V} (htotal : 0 < ∑ j, sortedMass sort weight row keep j)
    (h0 : 0 < topP) (j : Fin V) :
    topPKeepMask weight (fillDropped keep fun j ↦ row (sort row j)) topP j = true ↔
      j ∈ tail (sortedMass sort weight row keep)
        ((1 - topP) * ∑ j, sortedMass sort weight row keep j) := by
  have hcum : cumsum (softmax weight (fillDropped keep fun j ↦ row (sort row j))) j =
      (∑ i ∈ Finset.Iic j, sortedMass sort weight row keep i) /
        ∑ j, sortedMass sort weight row keep j :=
    (Finset.sum_div _ _ _).symm
  rw [topPKeepMask, Bool.or_eq_true, decide_eq_true_iff, decide_eq_true_iff, hcum,
    lt_div_iff₀ htotal, tail, Finset.mem_filter, and_iff_right (Finset.mem_univ j)]
  constructor
  · rintro (hlt | hlast)
    · exact hlt
    · have hall : Finset.Iic j = Finset.univ := by
        ext i
        simp only [Finset.mem_Iic, Finset.mem_univ, iff_true]
        exact Fin.le_def.mpr (by omega)
      rw [hall]
      nlinarith
  · exact Or.inl

theorem filterRow_nucleus (hweight : ∀ x, 0 < weight x)
    (hsort : Monotone fun j ↦ row (sort row j)) (hk : ValidTopK V topK) (h0 : 0 < topP)
    (h1 : topP < 1) (hrow : ∃ i, row i ≠ ⊥) :
    ∃ keep : Mask V, filterRow sort weight topK topP row = .ok (fillDropped keep row, keep) ∧
      Nucleus weight topK topP row (Finset.univ.filter fun i ↦ keep i) := by
  obtain ⟨keep, hkeep, hfilter⟩ := @filterRow_eq _ _ _ _ _ _ sort weight topK topP row hsort hk
  refine ⟨_, hfilter, ?_⟩
  obtain ⟨w, hw⟩ : ∃ w, w = sortedMass sort weight row keep := ⟨_, rfl⟩
  obtain ⟨i, hi⟩ := hrow
  obtain ⟨m, hmax, hm⟩ := exists_largest hi
  have helig := eligible_eq_map hkeep
  have htotal : total weight row (eligible topK row) = ∑ j, w j := by
    rw [helig, hw, sum_sortedMass]
  have hnonneg : ∀ j, 0 ≤ w j := by
    intro j
    rw [hw]
    exact mass_nonneg hweight _
  have hmE := mem_eligible_of_max topK hmax
  have hpos : 0 < ∑ j, w j := by
    rw [← htotal]
    exact Finset.sum_pos' (fun i _ ↦ mass_nonneg hweight _) ⟨m, hmE, mass_pos hweight hm⟩
  obtain ⟨q, hq⟩ : ∃ q, q = (1 - topP) * ∑ j, w j := ⟨_, rfl⟩
  have hq0 : 0 ≤ q := hq ▸ mul_nonneg (sub_nonneg.mpr h1.le) hpos.le
  have hqt : q < ∑ j, w j := by
    rw [hq]
    nlinarith
  have hkept : (Finset.univ.filter fun i ↦
      unsort (sort row) (sortedMask sort weight topP row keep) i) =
        ((tail w q).filter fun j ↦ keep j).map (sort row).toEmbedding := by
    have hiff : ∀ j, topPKeepMask weight (fillDropped keep fun j ↦ row (sort row j)) topP j = true ↔
        j ∈ tail w q := by
      rw [hq, hw]
      exact topPKeepMask_iff (hw ▸ hpos) h0
    ext i
    simp only [Finset.mem_map, Finset.mem_filter, Finset.mem_univ, true_and, unsort, sortedMask,
      Bool.and_eq_true, hiff]
    constructor
    · intro hi
      exact ⟨(sort row).symm i, hi.symm, (sort row).apply_symm_apply i⟩
    · rintro ⟨j, hj, rfl⟩
      rw [Equiv.toEmbedding_apply, (sort row).symm_apply_apply]
      exact hj.symm
  obtain ⟨j₀, hj₀, hmin, hj₀pos, hrest⟩ := exists_tail_min hnonneg hq0 hqt
  have hcompl := sum_compl_tail_le hnonneg hq0
  have hsplit := Finset.sum_add_sum_compl (tail w q) w
  have hj₀keep : keep j₀ = true := by
    by_contra hnot
    rw [hw, sortedMass_eq, if_neg hnot] at hj₀pos
    exact lt_irrefl _ hj₀pos
  have hj₀bot : row (sort row j₀) ≠ ⊥ := by
    intro hbot
    rw [hw, sortedMass_eq, if_pos hj₀keep, hbot] at hj₀pos
    exact lt_irrefl _ hj₀pos
  have hfrac : (∑ j, w j) - q = topP * ∑ j, w j := by
    rw [hq]
    ring
  have hmem : ∀ i ∈ ((tail w q).filter fun j ↦ keep j).map (sort row).toEmbedding,
      ∃ j ∈ tail w q, keep j = true ∧ sort row j = i := by
    intro i hi
    obtain ⟨j, hj, hji⟩ := Finset.mem_map.mp hi
    exact ⟨j, (Finset.mem_filter.mp hj).1, (Finset.mem_filter.mp hj).2, hji⟩
  rw [hkept]
  refine ⟨?_, ?_, ?_, ?_, ?_⟩
  · obtain ⟨j₁, hj₁⟩ : ∃ j₁, j₁ = max j₀ ((sort row).symm m) := ⟨_, rfl⟩
    have hlargest : ∀ i, row i ≤ row (sort row j₁) := by
      intro i
      have hle := hsort (hj₁ ▸ le_max_right j₀ ((sort row).symm m))
      simp only [(sort row).apply_symm_apply] at hle
      exact (hmax i).trans hle
    have htail := mem_tail_of_le hnonneg hj₀ (hj₁ ▸ le_max_left j₀ ((sort row).symm m))
    refine ⟨sort row j₁, Finset.mem_map_of_mem _ (Finset.mem_filter.mpr ⟨htail, ?_⟩), hlargest⟩
    exact (hkeep j₁).mpr (mem_eligible_of_max topK hlargest)
  · rw [helig]
    exact Finset.map_subset_map.mpr (Finset.filter_subset_filter _ (Finset.subset_univ _))
  · rw [htotal, ← sum_sortedMass, ← hw, ← hfrac]
    linarith
  · intro i hi hleast _
    obtain ⟨j, hj, hjkeep, rfl⟩ := hmem i hi
    have hj₀mem : sort row j₀ ∈ ((tail w q).filter fun j ↦ keep j).map (sort row).toEmbedding :=
      Finset.mem_map_of_mem _ (Finset.mem_filter.mpr ⟨hj₀, hj₀keep⟩)
    have hsame : row (sort row j) = row (sort row j₀) :=
      le_antisymm (hleast _ hj₀mem) (hsort (hmin j hj))
    have herase : total weight row
        ((((tail w q).filter fun j ↦ keep j).map (sort row).toEmbedding).erase (sort row j)) =
          ∑ j ∈ (tail w q).erase j₀, w j := by
      have hall : total weight row (((tail w q).filter fun j ↦ keep j).map
          (sort row).toEmbedding) = ∑ j ∈ tail w q, w j := by
        rw [hw, sum_sortedMass]
      have hone : w j₀ = mass weight (row (sort row j)) := by
        rw [hw, sortedMass_eq, if_pos hj₀keep, hsame]
      rw [total, ← Finset.add_sum_erase _ _ hi] at hall
      rw [← Finset.add_sum_erase _ _ hj₀, hone] at hall
      exact add_left_cancel hall
    rw [herase, htotal, ← hfrac]
    exact hrest
  · intro _ i hi
    obtain ⟨j, hj, -, rfl⟩ := hmem i hi
    have hle := hsort (hmin j hj)
    exact fun hbot ↦ hj₀bot (le_bot_iff.mp (hle.trans hbot.le))

end Rows

section Batches

variable {L K : Type} [LinearOrder L] [Field K] [LinearOrder K] {V : ℕ}
  {sort : Row L V → Equiv.Perm (Fin V)} {weight : L → K} {topK : Option ℤ} {topP : K}

theorem flatMap_chunks {α : Type} (l : List α) {size : ℕ} (hsize : 0 < size) :
    ((List.range ((l.length + size - 1) / size)).flatMap fun c ↦
      slice l (c * size) (min (c * size + size) l.length)) = l := by
  have hchunk : ∀ c, slice l (c * size) (min (c * size + size) l.length) =
      (l.drop (c * size)).take size := by
    intro c
    rw [slice, List.take_eq_take_iff, List.length_drop]
    omega
  simp only [hchunk]
  rw [flatMap_take_drop, List.take_of_length_le (le_ceil_mul l.length hsize)]

omit [LinearOrder L] in
theorem backward_some {G : Type} [Zero G] {logits : List (Row L V)} (kept : Row L V → Mask V)
    (grad : List (Fin V → G)) : backward (some (logits.map kept)) grad =
      List.zipWith (fun row g i ↦ if kept row i then g i else 0) logits grad := by
  rw [backward, Option.elim_some, List.zipWith_map_left]

omit [LinearOrder L] in
theorem backward_none {G : Type} [Zero G] {logits : List (Row L V)} {kept : Row L V → Mask V}
    (hkept : ∀ row ∈ logits, ∀ i, kept row i = true) {grad : List (Fin V → G)}
    (hlen : grad.length = logits.length) : backward none grad =
      List.zipWith (fun row g i ↦ if kept row i then g i else 0) logits grad := by
  rw [backward, Option.elim_none]
  induction logits generalizing grad with
  | nil => exact List.length_eq_zero_iff.mp hlen
  | cons row logits ih =>
    obtain ⟨hrow, hrest⟩ := List.forall_mem_cons.mp hkept
    obtain ⟨g, grad, rfl⟩ := List.exists_cons_of_length_eq_add_one hlen
    rw [List.zipWith_cons_cons, ← ih hrest (Nat.succ.inj hlen)]
    simp only [hrow, if_true]

theorem applyTopKTopPFn_rows {kept : Row L V → Mask V} {logits : List (Row L V)}
    {chunkSize : Option ℕ} (htopP : topP ≠ 1)
    (hrows : ∀ row ∈ logits, filterRow sort weight topK topP row =
      .ok (fillDropped (kept row) row, kept row))
    (hsize : chunkSize ≠ some 0) (hnone : chunkSize = none → logits ≠ []) :
    applyTopKTopPFn sort weight logits topK topP chunkSize =
      .ok (logits.map fun row ↦ fillDropped (kept row) row, some (logits.map kept)) := by
  obtain ⟨size, hsome⟩ : ∃ size, size = chunkSize.getD logits.length := ⟨_, rfl⟩
  have hpos : 0 < size := by
    rw [hsome]
    cases chunkSize with
    | none => exact List.length_pos_iff.mpr (hnone rfl)
    | some c => exact Nat.pos_of_ne_zero fun h ↦ hsize (congrArg some h)
  have hneed : needTopPFiltering topP = true := by simpa [needTopPFiltering] using htopP
  have hchunks : ((List.range ((logits.length + size - 1) / size)).mapM fun c ↦
      (slice logits (c * size) (min (c * size + size) logits.length)).mapM
        (filterRow sort weight topK topP)) =
      .ok ((List.range ((logits.length + size - 1) / size)).map fun c ↦
        (slice logits (c * size) (min (c * size + size) logits.length)).map
          fun row ↦ (fillDropped (kept row) row, kept row)) := by
    refine mapM_pure_of_forall fun c _ ↦ mapM_pure_of_forall fun row hrow ↦ ?_
    exact hrows row (List.mem_of_mem_drop (List.mem_of_mem_take hrow))
  have hflat := flatMap_chunks logits hpos
  rw [applyTopKTopPFn, hneed]
  simp only [Bool.not_true, Bool.false_eq_true, if_false, ← hsome, hpos.ne', hchunks]
  change Except.ok _ = _
  rw [← List.flatMap_def, ← List.map_flatMap, hflat, List.map_map, List.map_map]
  rfl

def FiltersBy (sort : Row L V → Equiv.Perm (Fin V)) (weight : L → K) (topK : Option ℤ) (topP : K)
    (kept : Row L V → Mask V) (logits : List (Row L V)) (chunkSize : Option ℕ) : Prop :=
  ∃ keepMask, applyTopKTopP sort weight logits topK topP chunkSize =
      .ok (logits.map fun row ↦ fillDropped (kept row) row, keepMask) ∧
    (keepMask = some (logits.map kept) ∨
      keepMask = none ∧ ∀ row ∈ logits, ∀ i, kept row i = true) ∧
    ∀ {G : Type} [Zero G] (grad : List (Fin V → G)), grad.length = logits.length →
      backward keepMask grad =
        List.zipWith (fun row g i ↦ if kept row i then g i else 0) logits grad

theorem filtersBy_of_mask {kept : Row L V → Mask V} {logits : List (Row L V)}
    {chunkSize : Option ℕ} (h : applyTopKTopP sort weight logits topK topP chunkSize =
      .ok (logits.map fun row ↦ fillDropped (kept row) row, some (logits.map kept))) :
    FiltersBy sort weight topK topP kept logits chunkSize :=
  ⟨_, h, .inl rfl, fun grad _ ↦ backward_some kept grad⟩

variable [IsStrictOrderedRing K]

theorem exists_kept_topK (hweight : ∀ x, 0 < weight x) (hk : ValidTopK V topK) :
    ∃ kept : Row L V → Mask V,
      (∀ row : Row L V, (∃ i, row i ≠ ⊥) →
        Nucleus weight topK 1 row (Finset.univ.filter fun i ↦ kept row i)) ∧
      ∀ logits chunkSize, FiltersBy sort weight topK 1 kept logits chunkSize := by
  have hneedP : needTopPFiltering (1 : K) = false := by simp [needTopPFiltering]
  rcases validTopK_cases hk with hoff | ⟨k, rfl, hk, hkV⟩
  · refine ⟨fun _ _ ↦ true, ?_, ?_⟩
    · intro row hrow
      have hall : (Finset.univ.filter fun _ : Fin V ↦ true = true) = eligible topK row := by
        rw [eligible_of_off hoff]
        exact Finset.filter_true_of_mem fun _ _ ↦ rfl
      exact hall ▸ nucleus_eligible hweight hrow
    · intro logits chunkSize
      refine ⟨none, ?_, .inr ⟨rfl, fun _ _ _ ↦ rfl⟩, fun grad hlen ↦
        backward_none (fun _ _ _ ↦ rfl) hlen⟩
      rw [applyTopKTopP, hoff, hneedP]
      simp only [fillDropped_all, List.map_id']
      rfl
  · choose kept hkept helig using topKOnlyRow_eq (L := L) hk hkV
    refine ⟨kept, ?_, ?_⟩
    · intro row hrow
      have hall : (Finset.univ.filter fun i ↦ kept row i = true) = eligible (some (k : ℤ)) row := by
        ext i
        rw [Finset.mem_filter, and_iff_right (Finset.mem_univ i), helig]
      exact hall ▸ nucleus_eligible hweight hrow
    · intro logits chunkSize
      have hon : needTopKFiltering (some (k : ℤ)) = true := by
        rw [needTopKFiltering, Option.any_some, decide_eq_true_iff]
        omega
      have hrows : logits.mapM (topKOnlyRow k) =
          .ok (logits.map fun row ↦ (fillDropped (kept row) row, kept row)) :=
        mapM_pure_of_forall fun row _ ↦ hkept row
      apply filtersBy_of_mask
      simp only [applyTopKTopP, applyTopKTopPFn, applyTopKOnlyFn, hon, hneedP, Bool.not_true,
        Bool.not_false, Bool.false_and, Bool.false_eq_true, if_false, if_true, Option.getD_some,
        Int.toNat_natCast, hrows]
      change Except.ok _ = _
      rw [List.map_map, List.map_map]
      rfl

theorem exists_kept_topP (hsort : ∀ row : Row L V, Monotone fun j ↦ row (sort row j))
    (hweight : ∀ x, 0 < weight x) (hk : ValidTopK V topK) (h0 : 0 < topP) (h1 : topP < 1) :
    ∃ kept : Row L V → Mask V,
      (∀ row : Row L V, (∃ i, row i ≠ ⊥) →
        Nucleus weight topK topP row (Finset.univ.filter fun i ↦ kept row i)) ∧
      ∀ logits chunkSize, (∀ row ∈ logits, ∃ i, row i ≠ ⊥) → chunkSize ≠ some 0 →
        (chunkSize = none → logits ≠ []) →
          FiltersBy sort weight topK topP kept logits chunkSize := by
  classical
  have hexists : ∀ row : Row L V, ∃ keep : Mask V, (∃ i, row i ≠ ⊥) →
      filterRow sort weight topK topP row = .ok (fillDropped keep row, keep) ∧
        Nucleus weight topK topP row (Finset.univ.filter fun i ↦ keep i) := by
    intro row
    by_cases hrow : ∃ i, row i ≠ ⊥
    · obtain ⟨keep, hkeep⟩ := filterRow_nucleus hweight (hsort row) hk h0 h1 hrow
      exact ⟨keep, fun _ ↦ hkeep⟩
    · exact ⟨fun _ ↦ true, fun h ↦ absurd h hrow⟩
  choose kept hkept using hexists
  refine ⟨kept, fun row hrow ↦ (hkept row hrow).2, ?_⟩
  intro logits chunkSize hrows hsize hnone
  have hneed : needTopPFiltering topP = true := by simpa [needTopPFiltering] using h1.ne
  apply filtersBy_of_mask
  rw [applyTopKTopP, hneed, Bool.not_true, Bool.and_false, if_neg Bool.false_ne_true]
  exact applyTopKTopPFn_rows h1.ne (fun row hrow ↦ (hkept row (hrows row hrow)).1) hsize hnone

theorem topKOnlyRow_sorted (hsort : ∀ row : Row L V, Monotone fun j ↦ row (sort row j)) {k : ℕ}
    (hk : 1 ≤ k) (hkV : k ≤ V) (row : Row L V) :
    ∃ keep, topKKeepMask (fun j ↦ row (sort row j)) k = .ok keep ∧
      topKOnlyRow k row = .ok (fillDropped (scatter keep (sort row) keep) row,
        scatter keep (sort row) keep) := by
  obtain ⟨keep, hkeep, helig⟩ := topKKeepMask_eq hk hkV (hsort row)
  obtain ⟨keep', hkeep', helig'⟩ := topKOnlyRow_eq hk hkV row
  have hsame : keep' = scatter keep (sort row) keep := by
    funext i
    rw [scatter_perm, Bool.eq_iff_iff, helig, helig', (sort row).apply_symm_apply]
  exact ⟨keep, hkeep, hsame ▸ hkeep'⟩

/-- `apply_top_k_top_p` keeps in each row, by itself, a nucleus of the eligible entries. The
smallest entry of a nucleus is needed where it is finite. -/
theorem applyTopKTopP_nucleus (hsort : ∀ row : Row L V, Monotone fun j ↦ row (sort row j))
    (hweight : ∀ x, 0 < weight x) (hk : ValidTopK V topK) (h0 : 0 < topP) (h1 : topP ≤ 1) :
    (∃ kept : Row L V → Mask V,
      (∀ row : Row L V, (∃ i, row i ≠ ⊥) →
        Nucleus weight topK topP row (Finset.univ.filter fun i ↦ kept row i)) ∧
      ∀ logits chunkSize, (∀ row ∈ logits, ∃ i, row i ≠ ⊥) → chunkSize ≠ some 0 →
        (chunkSize = none → logits ≠ []) →
          FiltersBy sort weight topK topP kept logits chunkSize) ∧
    ∀ k : ℕ, 1 ≤ k → k ≤ V → ∀ row : Row L V,
      ∃ keep, topKKeepMask (fun j ↦ row (sort row j)) k = .ok keep ∧
        topKOnlyRow k row = .ok (fillDropped (scatter keep (sort row) keep) row,
          scatter keep (sort row) keep) := by
  refine ⟨?_, fun k hk hkV row ↦ topKOnlyRow_sorted hsort hk hkV row⟩
  rcases h1.lt_or_eq with hlt | rfl
  · exact exists_kept_topP hsort hweight hk h0 hlt
  · obtain ⟨kept, hnucleus, hfilters⟩ := @exists_kept_topK _ _ _ _ _ _ sort _ _ _ hweight hk
    exact ⟨kept, hnucleus, fun logits chunkSize _ _ _ ↦ hfilters logits chunkSize⟩

theorem applyTopKTopP_nucleus_tied :
    (∃ kept : Row ℕ 3 → Mask 3,
      Nucleus (fun x ↦ (2 : ℚ) ^ x) (some 2) (9 / 10) ![(4 : ℕ), ⊥, (4 : ℕ)]
        (Finset.univ.filter fun i ↦ kept ![(4 : ℕ), ⊥, (4 : ℕ)] i) ∧
      FiltersBy Tuple.sort (fun x ↦ (2 : ℚ) ^ x) (some 2) (9 / 10) kept
        [![(4 : ℕ), ⊥, (4 : ℕ)], ![(1 : ℕ), (7 : ℕ), (2 : ℕ)]] (some 1)) := by
  have hrow : ∃ i, (![(4 : ℕ), ⊥, (4 : ℕ)] : Row ℕ 3) i ≠ ⊥ := ⟨0, by decide⟩
  have hrow' : ∃ i, (![(1 : ℕ), (7 : ℕ), (2 : ℕ)] : Row ℕ 3) i ≠ ⊥ := ⟨0, by decide⟩
  obtain ⟨⟨kept, hnucleus, hfilters⟩, -⟩ :=
    @applyTopKTopP_nucleus ℕ ℚ _ _ _ 3 Tuple.sort (fun x ↦ 2 ^ x) (some 2) (9 / 10) _
      (fun row ↦ Tuple.monotone_sort row) (fun x ↦ by positivity)
      (.inr (.inr ⟨2, rfl, by decide, by decide⟩)) (by norm_num) (by norm_num)
  refine ⟨kept, hnucleus _ hrow, hfilters _ _ ?_ (by decide) (by decide)⟩
  intro row hmem
  rcases List.mem_cons.mp hmem with rfl | hmem
  · exact hrow
  · rw [List.mem_singleton.mp hmem]
    exact hrow'

/-- With both filters off an entry of no mass is kept, and not needed. -/
theorem applyTopKTopP_minusInfinity :
    applyTopKTopP Tuple.sort (fun _ : ℕ ↦ (1 : ℚ)) [(![(0 : ℕ), ⊥] : Row ℕ 2)] none 1 none =
        .ok ([![(0 : ℕ), ⊥]], none) ∧
      (∀ j, (![(0 : ℕ), ⊥] : Row ℕ 2) 1 ≤ (![(0 : ℕ), ⊥] : Row ℕ 2) j) ∧
      ¬ total (fun _ : ℕ ↦ (1 : ℚ)) (![(0 : ℕ), ⊥] : Row ℕ 2) (Finset.univ.erase 1) <
        1 * total (fun _ : ℕ ↦ (1 : ℚ)) (![(0 : ℕ), ⊥] : Row ℕ 2)
          (eligible none (![(0 : ℕ), ⊥] : Row ℕ 2)) := by
  refine ⟨rfl, by decide, ?_⟩
  have herase : (Finset.univ.erase 1 : Finset (Fin 2)) = {0} := by decide
  rw [eligible_of_off rfl, total, total, herase, Finset.sum_singleton, Fin.sum_univ_two]
  simp [mass]

end Batches

end NemoRL.Algorithms.LogitsSampling
