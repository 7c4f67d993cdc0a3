import Mathlib
import NemoRL.Data.Packing.Algorithms

namespace NemoRL.Data.Packing

open Foundations.Positions Foundations.Packing

def lengthAt (sequenceLengths : List ℤ) (i : ℕ) : ℤ := sequenceLengths.getD i 0

variable {sequenceLengths : List ℤ} {capacity : ℤ}

theorem lengthAt_of_mem {x : ℤ × ℕ} (h : x ∈ sequenceLengths.zipIdx) :
    lengthAt sequenceLengths x.2 = x.1 := by
  have hget := List.mem_zipIdx_iff_getElem?.mp h
  rw [lengthAt, List.getD_eq_getElem?_getD, hget]
  rfl

/-- A list of index lists that packs every index within the capacity, no list being empty. -/
structure Filled (sequenceLengths : List ℤ) (capacity : ℤ) (indices : List ℕ)
    (bins : List (List ℕ)) : Prop where
  packs : Packs (lengthAt sequenceLengths) capacity indices bins
  nonempty : ∀ b ∈ bins, b ≠ []

/-- The pairs a packer is given: each length is that of its index and fits in a bin. -/
def Indexed (sequenceLengths : List ℤ) (capacity : ℤ) (xs : List (ℤ × ℕ)) : Prop :=
  ∀ x ∈ xs, lengthAt sequenceLengths x.2 = x.1 ∧ x.1 ≤ capacity

theorem indexed_zipIdx (h : ∀ l ∈ sequenceLengths, l ≤ capacity) :
    Indexed sequenceLengths capacity sequenceLengths.zipIdx := by
  intro x hx
  refine ⟨lengthAt_of_mem hx, h x.1 ?_⟩
  exact List.mem_of_getElem? (List.mem_zipIdx_iff_getElem?.mp hx)

theorem map_snd_zipIdx (l : List ℤ) : l.zipIdx.map Prod.snd = List.range l.length := by
  rw [List.zipIdx_map_snd, List.range_eq_range']

section Concatenation

/-- The open bin is as long as the packer believes, and with it the bins pack
what has been read. -/
structure Concatenated (sequenceLengths : List ℤ) (capacity : ℤ) (indices : List ℕ)
    (s : Concatenation) : Prop where
  filled : Filled sequenceLengths capacity indices s.finish
  currentLength : s.currentLength = (s.currentBin.map (lengthAt sequenceLengths)).sum

theorem Concatenated.push {indices : List ℕ} {s : Concatenation}
    (h : Concatenated sequenceLengths capacity indices s) (limit : ℤ) {x : ℤ × ℕ}
    (hx : lengthAt sequenceLengths x.2 = x.1) (hfit : x.1 ≤ capacity) :
    Concatenated sequenceLengths capacity (x.2 :: indices) (s.push capacity limit x) := by
  obtain ⟨⟨hpacks, hne⟩, hlen⟩ := h
  unfold Concatenation.push
  split_ifs with hnew
  · have hfinish : Concatenation.finish ⟨s.finish, [x.2], x.1⟩ = s.finish ++ [[x.2]] := by
      simp [Concatenation.finish]
    refine ⟨⟨?_, ?_⟩, by simp [hx]⟩
    · rw [hfinish]
      exact hpacks.open_bin (hx ▸ hfit)
    · rw [hfinish]
      exact List.forall_mem_append.mpr ⟨hne, by simp⟩
  · obtain ⟨hcap, _⟩ := not_or.mp hnew
    have hfinish : Concatenation.finish ⟨s.bins, s.currentBin ++ [x.2], s.currentLength + x.1⟩ =
        s.bins ++ [s.currentBin ++ [x.2]] := by simp [Concatenation.finish]
    refine ⟨⟨?_, ?_⟩, by simp [hlen, hx]⟩
    · rw [hfinish]
      by_cases hempty : s.currentBin = []
      · have hbins : s.finish = s.bins := by simp [Concatenation.finish, hempty]
        rw [hbins] at hpacks
        rw [hempty]
        exact hpacks.open_bin (hx ▸ hfit)
      · have hbins : s.finish = s.bins ++ [s.currentBin] := by
          simp [Concatenation.finish, hempty]
        rw [hbins] at hpacks
        have hroom : (s.currentBin.map (lengthAt sequenceLengths)).sum +
            lengthAt sequenceLengths x.2 ≤ capacity := by
          rw [← hlen, hx]
          omega
        have hlast : (s.bins ++ [s.currentBin])[s.bins.length]? = some s.currentBin := by simp
        have hgrown := hpacks.modify hlast hroom
        rw [modify_eq_set hlast] at hgrown
        simpa using hgrown
    · rw [hfinish]
      refine List.forall_mem_append.mpr ⟨fun b hb ↦ hne b ?_, by simp⟩
      unfold Concatenation.finish
      split_ifs
      · exact List.mem_append_left _ hb
      · exact hb

theorem Concatenated.run (limit : ℤ) {xs : List (ℤ × ℕ)}
    (hx : Indexed sequenceLengths capacity xs) {indices : List ℕ} {s : Concatenation}
    (h : Concatenated sequenceLengths capacity indices s) :
    Concatenated sequenceLengths capacity ((xs.map Prod.snd).reverse ++ indices)
      (xs.foldl (Concatenation.push capacity limit) s) := by
  induction xs generalizing indices s with
  | nil => exact h
  | cons x xs ih =>
    obtain ⟨hhead, htail⟩ := List.forall_mem_cons.mp hx
    have hnext := ih htail (h.push limit hhead.1 hhead.2)
    rwa [List.map_cons, List.reverse_cons, List.append_assoc, List.singleton_append]

theorem filled_concatenate (limit : ℤ) (h : ∀ l ∈ sequenceLengths, l ≤ capacity) :
    Filled sequenceLengths capacity (List.range sequenceLengths.length)
      (concatenate capacity limit sequenceLengths) := by
  have hstart : Concatenated sequenceLengths capacity [] ⟨[], [], 0⟩ :=
    ⟨⟨Packs.nil, by simp [Concatenation.finish]⟩, rfl⟩
  have hrun := (hstart.run limit (indexed_zipIdx h)).filled
  rw [map_snd_zipIdx, List.append_nil] at hrun
  exact ⟨hrun.packs.of_perm_items (List.reverse_perm _), hrun.nonempty⟩

example : concatenate 5 (-1) [4, 1, 3, 2, 1, 3, 4, 5] = [[0, 1], [2, 3], [4, 5], [6], [7]] := by
  decide

end Concatenation

section FirstFit

/-- The room the packer believes is left in each bin is what is left. -/
structure Fitted (sequenceLengths : List ℤ) (capacity : ℤ) (indices : List ℕ) (s : FirstFit) :
    Prop where
  filled : Filled sequenceLengths capacity indices s.bins
  binRemaining : s.binRemaining =
    s.bins.map fun b ↦ capacity - (b.map (lengthAt sequenceLengths)).sum

theorem Fitted.place {indices : List ℕ} {s : FirstFit}
    (h : Fitted sequenceLengths capacity indices s) {x : ℤ × ℕ}
    (hx : lengthAt sequenceLengths x.2 = x.1) (hfit : x.1 ≤ capacity) :
    ∃ t, s.place capacity x = .ok t ∧ Fitted sequenceLengths capacity (x.2 :: indices) t := by
  obtain ⟨⟨hpacks, hne⟩, hrem⟩ := h
  unfold FirstFit.place
  rw [if_neg (not_lt.mpr hfit)]
  cases hi : s.binRemaining.findIdx? (x.1 ≤ ·) with
  | none =>
    refine ⟨_, rfl, ⟨hpacks.open_bin (hx ▸ hfit), ?_⟩, ?_⟩
    · exact List.forall_mem_append.mpr ⟨hne, by simp⟩
    · simp [hrem, hx]
  | some i =>
    obtain ⟨hlt, hroom, _⟩ := List.findIdx?_eq_some_iff_getElem.mp hi
    have hbound : i < s.bins.length := by
      rw [hrem, List.length_map] at hlt
      exact hlt
    have hget : s.bins[i]? = some s.bins[i] := List.getElem?_eq_getElem hbound
    have hleft : s.binRemaining[i] =
        capacity - (s.bins[i].map (lengthAt sequenceLengths)).sum := by
      simp only [hrem, List.getElem_map]
    rw [hleft, decide_eq_true_eq] at hroom
    refine ⟨_, rfl, ⟨hpacks.modify hget (by omega), fun b hb ↦ ?_⟩, ?_⟩
    · rcases List.mem_cons.mp ((modify_perm hget _).mem_iff.mp hb) with rfl | hb
      · simp
      · exact hne b (List.mem_of_mem_eraseIdx hb)
    · rw [map_modify_of_comm, ← hrem]
      intro b
      simp only [List.map_append, List.sum_append, List.map_cons, List.map_nil, List.sum_cons,
        List.sum_nil, hx]
      omega

theorem Fitted.run {xs : List (ℤ × ℕ)} (hx : Indexed sequenceLengths capacity xs)
    {indices : List ℕ} {s : FirstFit} (h : Fitted sequenceLengths capacity indices s) :
    ∃ t, xs.foldlM (FirstFit.place capacity) s = .ok t ∧
      Fitted sequenceLengths capacity ((xs.map Prod.snd).reverse ++ indices) t := by
  induction xs generalizing indices s with
  | nil => exact ⟨s, rfl, h⟩
  | cons x xs ih =>
    obtain ⟨hhead, htail⟩ := List.forall_mem_cons.mp hx
    obtain ⟨t, ht, hfitted⟩ := h.place hhead.1 hhead.2
    obtain ⟨u, hu, hend⟩ := ih htail hfitted
    refine ⟨u, ?_, ?_⟩
    · rw [List.foldlM_cons, ht]
      exact hu
    · rwa [List.map_cons, List.reverse_cons, List.append_assoc, List.singleton_append]

theorem filled_firstFit {xs : List (ℤ × ℕ)} (hp : xs.Perm sequenceLengths.zipIdx)
    (h : ∀ l ∈ sequenceLengths, l ≤ capacity) :
    ∃ bins, firstFit capacity xs = .ok bins ∧
      Filled sequenceLengths capacity (List.range sequenceLengths.length) bins := by
  have hx : Indexed sequenceLengths capacity xs := fun x hx ↦
    indexed_zipIdx h x (hp.mem_iff.mp hx)
  have hstart : Fitted sequenceLengths capacity [] ⟨[], []⟩ :=
    ⟨⟨Packs.nil, by simp⟩, rfl⟩
  obtain ⟨t, ht, hfitted⟩ := hstart.run hx
  refine ⟨t.bins, ?_, ?_, hfitted.filled.nonempty⟩
  · rw [firstFit, ht]
    rfl
  · refine hfitted.filled.packs.of_perm_items ?_
    rw [List.append_nil, ← map_snd_zipIdx]
    exact (List.reverse_perm _).trans (hp.map _)

end FirstFit

section ModifiedFirstFit

open ModifiedFirstFit

variable (quotient : ℤ → ℤ → ℚ)

theorem sum_append_item (b : List Item) (item : Item) :
    ((b ++ [item]).map Prod.snd).sum = (b.map Prod.snd).sum + item.2 := by simp

theorem addMedium_takes (capacity : ℤ) : Takes Prod.snd capacity (addMedium capacity) := by
  have hcases : ∀ b pool, addMedium capacity b pool = (b, pool) ∨ ∃ i item,
      pool[i]? = some item ∧ item.2 ≤ remaining capacity b ∧
        addMedium capacity b pool = (b ++ [item], pool.eraseIdx i) := by
    intro b pool
    unfold addMedium
    cases hi : pool.findIdx? fun item ↦ item.2 ≤ remaining capacity b with
    | none => exact .inl rfl
    | some i =>
      obtain ⟨hlt, hfit, _⟩ := List.findIdx?_eq_some_iff_getElem.mp hi
      refine .inr ⟨i, pool[i], List.getElem?_eq_getElem hlt, by simpa using hfit, ?_⟩
      simp only [List.getElem?_eq_getElem hlt, Option.toList_some]
  constructor
  · intro b pool
    rcases hcases b pool with h | ⟨i, item, hget, _, h⟩
    · rw [h]
    · rw [h]
      exact take_perm hget b
  · intro b pool hb
    rcases hcases b pool with h | ⟨i, item, _, hfit, h⟩
    · rwa [h]
    · rw [h, sum_append_item]
      unfold remaining at hfit
      omega

theorem findLastIdx?_eq_some {test : Item → Bool} {l : List Item} {j : ℕ}
    (h : findLastIdx? test l = some j) : ∃ item, l[j]? = some item ∧ test item = true := by
  have htest := List.find?_some h
  exact (Option.any_eq_true ..).mp htest

theorem findLastIdx?_cons_isSome (test : Item → Bool) {item : Item} (l : List Item)
    (h : test item = true) : (findLastIdx? test (item :: l)).isSome := by
  rw [findLastIdx?, List.find?_isSome]
  refine ⟨0, ?_, ?_⟩
  · simp
  · simpa using h

theorem addSmallPair_takes (capacity : ℤ) :
    Takes Prod.snd capacity (addSmallPair quotient capacity) := by
  have hcases : ∀ b pool, addSmallPair quotient capacity b pool = (b, pool) ∨
      ∃ first rest j item, pool = first :: rest ∧ rest[j]? = some item ∧
        item.2 ≤ remaining capacity b - first.2 ∧
        addSmallPair quotient capacity b pool = (b ++ [first, item], rest.eraseIdx j) := by
    intro b pool
    unfold addSmallPair
    cases pool with
    | nil => exact .inl rfl
    | cons first rest =>
      cases rest with
      | nil => exact .inl rfl
      | cons second rest =>
        simp only
        split_ifs with hskip
        · exact .inl rfl
        · have hroom := (not_or.mp hskip).2
          have hsecond : decide (second.2 ≤ remaining capacity b - first.2) = true :=
            decide_eq_true (by omega)
          cases hj : findLastIdx? (fun item ↦ item.2 ≤ remaining capacity b - first.2)
              (second :: rest) with
          | none =>
            have hsome := findLastIdx?_cons_isSome
              (fun item ↦ item.2 ≤ remaining capacity b - first.2) rest hsecond
            rw [hj] at hsome
            cases hsome
          | some j =>
            obtain ⟨item, hget, hfit⟩ := findLastIdx?_eq_some hj
            refine .inr ⟨first, second :: rest, j, item, rfl, hget, by simpa using hfit, ?_⟩
            simp only [hget, Option.toList_some]
  constructor
  · intro b pool
    rcases hcases b pool with h | ⟨first, rest, j, item, rfl, hget, _, h⟩
    · rw [h]
    · rw [h]
      have hpair := take_perm hget (b ++ [first])
      simpa using hpair
  · intro b pool hb
    rcases hcases b pool with h | ⟨first, rest, j, item, _, _, hfit, h⟩
    · rwa [h]
    · rw [h]
      unfold remaining at hfit
      simp only [List.map_append, List.map_cons, List.map_nil, List.sum_append, List.sum_cons,
        List.sum_nil]
      omega

theorem fillBin_spec (n : ℕ) (b pool : List Item) :
    ((fillBin capacity n b pool).1 ++ (fillBin capacity n b pool).2).Perm (b ++ pool) ∧
      ((b.map Prod.snd).sum ≤ capacity →
        ((fillBin capacity n b pool).1.map Prod.snd).sum ≤ capacity) := by
  induction n generalizing b pool with
  | zero => exact ⟨List.Perm.refl _, id⟩
  | succ n ih =>
    unfold fillBin
    cases pool.getLast? with
    | none => exact ⟨List.Perm.refl _, id⟩
    | some smallest =>
      simp only
      split_ifs with hstop
      · exact ⟨List.Perm.refl _, id⟩
      · cases hi : pool.findIdx? fun item ↦ item.2 ≤ remaining capacity b with
        | none => exact ⟨List.Perm.refl _, id⟩
        | some i =>
          obtain ⟨hlt, hfit, _⟩ := List.findIdx?_eq_some_iff_getElem.mp hi
          have hget : pool[i]? = some pool[i] := List.getElem?_eq_getElem hlt
          simp only [hget, Option.toList_some]
          obtain ⟨hperm, hsum⟩ := ih (b ++ [pool[i]]) (pool.eraseIdx i)
          refine ⟨hperm.trans (take_perm hget b), fun hb ↦ hsum ?_⟩
          rw [sum_append_item]
          rw [decide_eq_true_eq] at hfit
          unfold remaining at hfit
          omega

theorem fillBin_takes (capacity : ℤ) :
    Takes Prod.snd capacity fun b items ↦ fillBin capacity items.length b items :=
  ⟨fun b pool ↦ (fillBin_spec pool.length b pool).1,
    fun b pool ↦ (fillBin_spec pool.length b pool).2⟩

structure LeftoversPacked (capacity : ℤ) (items : List Item) (s : Leftovers) : Prop where
  packs : Packs Prod.snd capacity items s.bins
  sizes : s.sizes = s.bins.map fun b ↦ (b.map Prod.snd).sum

theorem bisect_le_length (a : List ℤ) (x : ℤ) : bisect a x ≤ a.length :=
  (List.takeWhile_prefix _).length_le

theorem LeftoversPacked.place {items : List Item} {s : Leftovers}
    (h : LeftoversPacked capacity items s) {item : Item} (hitem : item.2 ≤ capacity) :
    LeftoversPacked capacity (item :: items) (s.place capacity item) := by
  obtain ⟨hpacks, hsizes⟩ := h
  have hopen : Packs Prod.snd capacity (item :: items) ([item] :: s.bins) :=
    hpacks.cons (b := [item]) (by simpa using hitem)
  obtain ⟨bins, sizes⟩ := s
  simp only at hsizes hpacks hopen
  subst hsizes
  unfold Leftovers.place
  simp only
  split_ifs with hfit
  · cases bins with
    | nil => exact ⟨by simpa [bisect] using hopen, by simp [bisect]⟩
    | cons b bins =>
      simp only [List.map_cons, List.headD_cons, List.tail_cons] at hfit ⊢
      obtain ⟨rest, hrest, hp⟩ := hpacks.uncons
      have hgrown : Packs Prod.snd capacity ((b ++ [item]) ++ rest) ((b ++ [item]) :: bins) :=
        hrest.cons (by rw [sum_append_item]; omega)
      have hitems : (b ++ [item] ++ rest).Perm (item :: items) := by
        rw [List.append_assoc]
        exact List.perm_middle.trans (hp.symm.cons item)
      have hle := bisect_le_length (bins.map fun b ↦ (b.map Prod.snd).sum)
        ((b.map Prod.snd).sum + item.2)
      rw [List.length_map] at hle
      refine ⟨(hgrown.of_perm_items hitems).of_perm_bins (List.perm_insertIdx _ _ hle).symm, ?_⟩
      rw [List.map_insertIdx, sum_append_item]
  · have hle := bisect_le_length (bins.map fun b ↦ (b.map Prod.snd).sum) item.2
    rw [List.length_map] at hle
    refine ⟨hopen.of_perm_bins (List.perm_insertIdx _ _ hle).symm, ?_⟩
    rw [List.map_insertIdx]
    simp

theorem packs_packLeftovers {leftovers : List Item} (h : ∀ item ∈ leftovers, item.2 ≤ capacity)
    (hcap : 0 ≤ capacity) : Packs Prod.snd capacity leftovers (packLeftovers capacity leftovers) := by
  have hrun : ∀ (xs : List Item), (∀ item ∈ xs, item.2 ≤ capacity) → ∀ items s,
      LeftoversPacked capacity items s →
      LeftoversPacked capacity (xs.reverse ++ items) (xs.foldl (Leftovers.place capacity) s) := by
    intro xs
    induction xs with
    | nil => exact fun _ items s h ↦ h
    | cons x xs ih =>
      intro hx items s hs
      obtain ⟨hhead, htail⟩ := List.forall_mem_cons.mp hx
      have hnext := ih htail _ _ (hs.place hhead)
      rwa [List.reverse_cons, List.append_assoc, List.singleton_append]
  have hperm : (sortDescending leftovers).Perm leftovers := List.perm_insertionSort _ _
  have hend := hrun (sortDescending leftovers) (fun item hi ↦ h item (hperm.mem_iff.mp hi)) []
    ⟨[[]], [0]⟩ ⟨⟨by simp, by simpa using hcap⟩, by simp⟩
  refine hend.packs.of_perm_items ?_
  rw [List.append_nil]
  exact (List.reverse_perm _).trans hperm

theorem classes_perm (capacity : ℤ) (items : List Item) :
    (classifyItems quotient capacity items .large ++
      (classifyItems quotient capacity items .medium ++
      (classifyItems quotient capacity items .small ++
        classifyItems quotient capacity items .tiny))).Perm items := by
  rw [List.perm_iff_count]
  intro a
  simp only [classifyItems, List.count_append]
  induction items with
  | nil => rfl
  | cons item items ih =>
    simp only [List.filter_cons, List.count_cons]
    cases hc : sizeClass quotient capacity item.2 <;>
      simp only [reduceCtorEq, decide_true, decide_false, Bool.false_eq_true, if_true, if_false,
        List.count_cons] <;>
      omega

theorem packs_packItems {items : List Item} (hcap : 0 ≤ capacity)
    (h : ∀ item ∈ items, item.2 ≤ capacity) :
    Packs Prod.snd capacity items (packItems quotient capacity items) := by
  have hclasses := classes_perm quotient capacity items
  unfold packItems
  set large := sortDescending (classifyItems quotient capacity items .large)
  set medium := sortDescending (classifyItems quotient capacity items .medium)
  set small := sortAscending (classifyItems quotient capacity items .small)
  set tiny := sortAscending (classifyItems quotient capacity items .tiny)
  set r₂ := sweep (addMedium capacity) (large.map fun item ↦ [item]) medium with hr₂
  set r₃ := sweep (addSmallPair quotient capacity) r₂.1.reverse small with hr₃
  set items₄ := sortDescending (r₂.2 ++ r₃.2 ++ tiny)
  set r₄ := sweep (fun b items ↦ fillBin capacity items.length b items) r₃.1.reverse items₄
    with hr₄
  have hlargePerm : large.Perm (classifyItems quotient capacity items .large) :=
    List.perm_insertionSort _ _
  have hmediumPerm : medium.Perm (classifyItems quotient capacity items .medium) :=
    List.perm_insertionSort _ _
  have hsmallPerm : small.Perm (classifyItems quotient capacity items .small) :=
    List.perm_insertionSort _ _
  have htinyPerm : tiny.Perm (classifyItems quotient capacity items .tiny) :=
    List.perm_insertionSort _ _
  have hitems₄Perm : items₄.Perm (r₂.2 ++ r₃.2 ++ tiny) := List.perm_insertionSort _ _
  have hsingle : (large.map fun item ↦ [item]).flatten = large := by
    rw [← List.flatMap_def, List.flatMap_singleton']
  have hp₂ := (addMedium_takes capacity).sweep_perm (large.map fun item ↦ [item]) medium
  have hp₃ := (addSmallPair_takes quotient capacity).sweep_perm r₂.1.reverse small
  have hp₄ := (fillBin_takes capacity).sweep_perm r₃.1.reverse items₄
  have hrev₂ : r₂.1.reverse.flatten.Perm r₂.1.flatten := (List.reverse_perm _).flatten
  have hrev₃ : r₃.1.reverse.flatten.Perm r₃.1.flatten := (List.reverse_perm _).flatten
  rw [← hr₂, hsingle] at hp₂
  rw [← hr₃] at hp₃
  rw [← hr₄] at hp₄
  have hall : (r₄.1.flatten ++ r₄.2).Perm items := by
    rw [List.perm_iff_count] at *
    intro a
    have h₁ := hclasses a
    have h₂ := hp₂ a
    have h₃ := hp₃ a
    have h₄ := hp₄ a
    have h₅ := hrev₂ a
    have h₆ := hrev₃ a
    have h₇ := hitems₄Perm a
    have h₈ := hlargePerm a
    have h₉ := hmediumPerm a
    have h₁₀ := hsmallPerm a
    have h₁₁ := htinyPerm a
    simp only [List.count_append] at *
    omega
  have hfits₁ : ∀ b ∈ large.map fun item ↦ [item], (b.map Prod.snd).sum ≤ capacity := by
    intro b hb
    obtain ⟨item, hitem, rfl⟩ := List.mem_map.mp hb
    have hmem := List.mem_of_mem_filter (hlargePerm.mem_iff.mp hitem)
    simpa using h item hmem
  have hfits₂ := (addMedium_takes capacity).sweep_fits medium hfits₁
  have hfits₃ := (addSmallPair_takes quotient capacity).sweep_fits small
    fun b hb ↦ hfits₂ b (List.mem_reverse.mp hb)
  have hfits₄ := (fillBin_takes capacity).sweep_fits items₄
    fun b hb ↦ hfits₃ b (List.mem_reverse.mp hb)
  have hbins : Packs Prod.snd capacity r₄.1.flatten r₄.1 := ⟨List.Perm.refl _, hfits₄⟩
  have hleft : Packs Prod.snd capacity r₄.2 (packLeftovers capacity r₄.2) := by
    refine packs_packLeftovers (fun item hi ↦ h item ?_) hcap
    exact hall.mem_iff.mp (List.mem_append_right _ hi)
  exact (hbins.append hleft).of_perm_items hall

theorem filled_modifiedFirstFit (hcap : 0 ≤ capacity) (h : ∀ l ∈ sequenceLengths, l ≤ capacity) :
    Filled sequenceLengths capacity (List.range sequenceLengths.length)
      (((packItems quotient capacity (sequenceLengths.zipIdx.map Prod.swap)).filter
        fun b ↦ !b.isEmpty).map (List.map Prod.fst)) := by
  have hitem : ∀ item ∈ sequenceLengths.zipIdx.map Prod.swap,
      lengthAt sequenceLengths item.1 = item.2 ∧ item.2 ≤ capacity := by
    intro item hi
    obtain ⟨x, hx, rfl⟩ := List.mem_map.mp hi
    exact indexed_zipIdx h x hx
  have hpacks := packs_packItems quotient hcap fun item hi ↦ (hitem item hi).2
  have hfst : (sequenceLengths.zipIdx.map Prod.swap).map Prod.fst =
      List.range sequenceLengths.length := by
    rw [List.map_map, ← map_snd_zipIdx]
    rfl
  constructor
  · rw [← hfst]
    exact hpacks.filter_nonempty.map Prod.fst fun item hi ↦ (hitem item hi).1
  · intro b hb
    obtain ⟨c, hc, rfl⟩ := List.mem_map.mp hb
    have hne := (List.mem_filter.mp hc).2
    simpa using hne

end ModifiedFirstFit

section Adjust

variable {p : SequencePacker}

theorem targetBinCount_spec (p : SequencePacker) (current : ℕ) :
    current ≤ p.targetBinCount current ∧ (∀ m ∈ p.minBinCount, m ≤ p.targetBinCount current) ∧
      ∀ m ∈ p.binCountMultiple, m ∣ p.targetBinCount current := by
  set target := p.minBinCount.elim current (max current) with htarget
  have hcurrent : current ≤ target := by
    rw [htarget]
    cases p.minBinCount with
    | none => exact le_rfl
    | some m => exact le_max_left _ _
  have hmin : ∀ m ∈ p.minBinCount, m ≤ target := by
    intro m hm
    rw [htarget, hm]
    exact le_max_right _ _
  unfold SequencePacker.targetBinCount
  rw [← htarget]
  cases hmultiple : p.binCountMultiple with
  | none => exact ⟨hcurrent, hmin, by simp⟩
  | some multiple =>
    have hpos := p.binCountMultiple_pos multiple hmultiple
    have hlt := Nat.mod_lt target hpos
    simp only
    split_ifs with hrem
    · refine ⟨by omega, fun m hm ↦ (hmin m hm).trans (by omega), fun m hm ↦ ?_⟩
      obtain rfl := Option.some.inj hm
      have hsum : target + (multiple - target % multiple) = multiple * (target / multiple + 1) := by
        have hdiv := Nat.div_add_mod target multiple
        rw [Nat.mul_add, Nat.mul_one]
        omega
      exact ⟨_, hsum⟩
    · refine ⟨hcurrent, hmin, fun m hm ↦ ?_⟩
      obtain rfl := Option.some.inj hm
      exact Nat.dvd_of_mod_eq_zero (not_not.mp hrem)

theorem targetBinCount_le {current count : ℕ} (hcurrent : current ≤ count)
    (hmin : ∀ m ∈ p.minBinCount, m ≤ count) (hdvd : ∀ m ∈ p.binCountMultiple, m ∣ count) :
    p.targetBinCount current ≤ count := by
  set target := p.minBinCount.elim current (max current) with htarget
  have hle : target ≤ count := by
    rw [htarget]
    cases hm : p.minBinCount with
    | none => exact hcurrent
    | some m => exact max_le hcurrent (hmin m hm)
  unfold SequencePacker.targetBinCount
  rw [← htarget]
  cases hmultiple : p.binCountMultiple with
  | none => exact hle
  | some multiple =>
    simp only
    split_ifs with hrem
    · obtain ⟨q, rfl⟩ := hdvd multiple hmultiple
      have hdiv := Nat.div_add_mod target multiple
      have hq : target / multiple + 1 ≤ q := by
        by_contra hlt
        have hmul := Nat.mul_le_mul_left multiple (show q ≤ target / multiple by omega)
        omega
      have hmul := Nat.mul_le_mul_left multiple hq
      rw [Nat.mul_add, Nat.mul_one] at hmul
      have hlt := Nat.mod_lt target (p.binCountMultiple_pos multiple hmultiple)
      omega
    · exact hle

/-- The redistribution after `k` new bins have been filled with `todo` to go:
the sources still ahead can spare a sequence for each of them. -/
structure Redistributing (size : ℕ → ℤ) (capacity : ℤ) (indices : List ℕ) (current k todo : ℕ)
    (s : List (List ℕ) × List (ℕ × ℕ)) : Prop where
  packs : Packs size capacity indices s.1
  length : s.1.length = current + k + todo
  nonempty : ∀ i b, s.1[i]? = some b → i < current + k → b ≠ []
  empty : ∀ i b, s.1[i]? = some b → current + k ≤ i → b = []
  sources : (s.2.map Prod.snd).Nodup
  sources_lt : ∀ x ∈ s.2, x.2 < current
  spare : todo ≤ (s.2.map fun x ↦ (s.1.getD x.2 []).length - 1).sum

theorem sum_map_dropWhile {α : Type*} (f : α → ℕ) (test : α → Bool) (l : List α)
    (h : ∀ a, test a = true → f a = 0) : ((l.dropWhile test).map f).sum = (l.map f).sum := by
  induction l with
  | nil => rfl
  | cons a l ih =>
    rw [List.dropWhile_cons]
    split_ifs with ha
    · rw [ih, List.map_cons, List.sum_cons, h a ha, Nat.zero_add]
    · rfl

theorem Redistributing.fill {size : ℕ → ℤ} {indices : List ℕ} {current k todo additional : ℕ}
    {s : List (List ℕ) × List (ℕ × ℕ)}
    (h : Redistributing size capacity indices current k (todo + 1) s)
    (hsize : ∀ i ∈ indices, 0 ≤ size i ∧ size i ≤ capacity) :
    ∃ t, SequencePacker.fillNewBin additional s (current + k) = .ok t ∧
      Redistributing size capacity indices current (k + 1) todo t := by
  obtain ⟨hpacks, hlength, hnonempty, hempty, hnodup, hlt, hspare⟩ := h
  have hdrop := sum_map_dropWhile (fun x : ℕ × ℕ ↦ (s.1.getD x.2 []).length - 1)
    (fun x ↦ ¬ 1 < (s.1.getD x.2 []).length) s.2 (by
      intro x hx
      rw [decide_eq_true_eq] at hx
      omega)
  have hsub : (s.2.dropWhile fun x ↦ ¬ 1 < (s.1.getD x.2 []).length).Sublist s.2 :=
    List.dropWhile_sublist _
  unfold SequencePacker.fillNewBin
  cases hahead : s.2.dropWhile fun x ↦ ¬ 1 < (s.1.getD x.2 []).length with
  | nil =>
    rw [hahead] at hdrop
    simp only [List.map_nil, List.sum_nil] at hdrop
    omega
  | cons source ahead =>
    rw [hahead] at hdrop hsub
    have hmany : 1 < (s.1.getD source.2 []).length := by
      have hhead := List.head?_dropWhile_not (fun x ↦ ¬ 1 < (s.1.getD x.2 []).length) s.2
      rw [hahead] at hhead
      simpa using hhead
    have hsource : source.2 < current := hlt _ (hsub.subset List.mem_cons_self)
    have hbound : source.2 < s.1.length := by omega
    have hget : s.1[source.2]? = some (s.1.getD source.2 []) := by
      rw [List.getD_eq_getElem?_getD, List.getElem?_eq_getElem hbound, Option.getD_some]
    have hne : s.1.getD source.2 [] ≠ [] := by
      intro hnil
      rw [hnil] at hmany
      simp at hmany
    have hsplit := List.dropLast_append_getLast hne
    set moved := (s.1.getD source.2 []).getLast hne with hmoved
    set kept := (s.1.getD source.2 []).dropLast with hkept
    rw [← hsplit] at hget
    have hlast : (s.1.getD source.2 []).getLast? = some moved := List.getLast?_eq_some_getLast hne
    have hnew : s.1[current + k]? = some [] := by
      have hin : current + k < s.1.length := by omega
      have hb := hempty (current + k) s.1[current + k] (List.getElem?_eq_getElem hin) le_rfl
      rw [List.getElem?_eq_getElem hin, hb]
    have hbin : kept ++ [moved] ∈ s.1 := List.mem_of_getElem? hget
    have hload := hpacks.fits _ hbin
    have hitem := hsize moved (hpacks.mem_items hbin (by simp))
    rw [List.map_append, List.sum_append] at hload
    simp only [List.map_cons, List.map_nil, List.sum_cons, List.sum_nil, add_zero] at hload
    have hmove := hpacks.move hget hnew (by omega) hitem.2
    have hsourceNew : source.2 ≠ current + k := by omega
    have hentry : ∀ i, ((s.1.modify source.2 List.dropLast).modify (current + k)
        (· ++ [moved]))[i]? = if i = source.2 then some kept else
          if i = current + k then some [moved] else s.1[i]? := by
      intro i
      rw [List.getElem?_modify, List.getElem?_modify]
      by_cases hi : i = source.2
      · subst hi
        simp [hget, hsourceNew.symm]
      · by_cases hi' : i = current + k
        · subst hi'
          simp [hnew, hsourceNew, hi]
        · simp [hi, hi', Ne.symm hi, Ne.symm hi']
    have hkeptLength : kept.length = (s.1.getD source.2 []).length - 1 := List.length_dropLast
    refine ⟨((s.1.modify source.2 List.dropLast).modify (current + k) (· ++ [moved]),
      source :: ahead), ?_, hmove, ?_, ?_, ?_, ?_, ?_, ?_⟩
    · simp only [hlast]
    · simp only [List.length_modify]
      omega
    · intro i b hb hi
      rw [hentry] at hb
      split_ifs at hb with h₁ h₂
      · rw [← Option.some.inj hb, ← List.length_pos_iff]
        omega
      · rw [← Option.some.inj hb]
        simp
      · exact hnonempty i b hb (by omega)
    · intro i b hb hi
      rw [hentry, if_neg (by omega), if_neg (by omega)] at hb
      exact hempty i b hb (by omega)
    · exact hnodup.sublist (hsub.map _)
    · exact fun x hx ↦ hlt x (hsub.subset hx)
    · have hsnd := hnodup.sublist (hsub.map Prod.snd)
      have hother : ahead.map (fun x ↦ (((s.1.modify source.2 List.dropLast).modify (current + k)
          (· ++ [moved])).getD x.2 []).length - 1) =
          ahead.map fun x ↦ (s.1.getD x.2 []).length - 1 := by
        refine List.map_congr_left fun x hx ↦ ?_
        have hne' : x.2 ≠ source.2 := fun heq ↦
          (List.nodup_cons.mp hsnd).1 (heq ▸ List.mem_map_of_mem hx)
        have hx' := hlt x (hsub.subset (List.mem_cons_of_mem _ hx))
        rw [List.getD_eq_getElem?_getD, hentry, if_neg hne', if_neg (by omega),
          ← List.getD_eq_getElem?_getD]
      have hfirst : ((s.1.modify source.2 List.dropLast).modify (current + k)
          (· ++ [moved])).getD source.2 [] = kept := by
        rw [List.getD_eq_getElem?_getD, hentry, if_pos rfl, Option.getD_some]
      simp only [List.map_cons, List.sum_cons] at hdrop ⊢
      rw [hother, hfirst]
      omega

theorem Redistributing.run {size : ℕ → ℤ} {indices : List ℕ} {current k todo : ℕ}
    {s : List (List ℕ) × List (ℕ × ℕ)} (additional : ℕ)
    (h : Redistributing size capacity indices current k todo s)
    (hsize : ∀ i ∈ indices, 0 ≤ size i ∧ size i ≤ capacity) :
    ∃ t, (List.range' (current + k) todo).foldlM (SequencePacker.fillNewBin additional) s =
        .ok t ∧ Redistributing size capacity indices current (k + todo) 0 t := by
  induction todo generalizing k s with
  | zero => exact ⟨s, rfl, h⟩
  | succ todo ih =>
    obtain ⟨t, ht, hnext⟩ := h.fill hsize
    obtain ⟨u, hu, hend⟩ := ih hnext
    refine ⟨u, ?_, ?_⟩
    · rw [List.range'_succ, List.foldlM_cons, ht]
      exact hu
    · rwa [show k + (todo + 1) = k + 1 + todo by omega]

theorem binSizes_perm (bins : List (List ℕ)) :
    (SequencePacker.binSizes bins).Perm (bins.zipIdx.map fun b ↦ (b.1.length, b.2)) :=
  List.perm_insertionSort _ _

theorem sum_sizes_le (bins : List (List ℕ)) :
    (bins.map List.length).sum ≤ (bins.map fun b ↦ b.length - 1).sum + bins.length := by
  induction bins with
  | nil => exact le_rfl
  | cons b bins ih =>
    simp only [List.map_cons, List.sum_cons, List.length_cons]
    omega

theorem redistributing_start {size : ℕ → ℤ} {indices : List ℕ} {bins : List (List ℕ)} {todo : ℕ}
    (hpacks : Packs size capacity indices bins) (hne : ∀ b ∈ bins, b ≠ []) (hcap : 0 ≤ capacity)
    (htodo : bins.length + todo ≤ indices.length) :
    Redistributing size capacity indices bins.length 0 todo
      (bins ++ List.replicate todo [], SequencePacker.binSizes bins) := by
  have hperm := binSizes_perm bins
  have hsnd : (bins.zipIdx.map fun b ↦ (b.1.length, b.2)).map Prod.snd =
      List.range bins.length := by
    rw [List.map_map, List.range_eq_range', ← List.zipIdx_map_snd]
    rfl
  have hempty : Packs size capacity [] (List.replicate todo []) := by
    refine ⟨by simp, fun b hb ↦ ?_⟩
    rw [List.eq_of_mem_replicate hb]
    simpa using hcap
  have hspare : ((SequencePacker.binSizes bins).map fun x ↦
      ((bins ++ List.replicate todo []).getD x.2 []).length - 1).sum =
      (bins.map fun b ↦ b.length - 1).sum := by
    rw [(hperm.map _).sum_eq, List.map_map]
    have hcongr : bins.zipIdx.map ((fun x : ℕ × ℕ ↦
        ((bins ++ List.replicate todo []).getD x.2 []).length - 1) ∘
          fun b : List ℕ × ℕ ↦ (b.1.length, b.2)) =
        bins.zipIdx.map fun b ↦ b.1.length - 1 := by
      refine List.map_congr_left fun b hb ↦ ?_
      have hget := List.mem_zipIdx_iff_getElem?.mp hb
      have hlt := (List.getElem?_eq_some_iff.mp hget).1
      simp only [Function.comp_apply]
      rw [List.getD_eq_getElem?_getD, List.getElem?_append_left hlt, hget, Option.getD_some]
    have hfst : bins.map (fun b ↦ b.length - 1) = bins.zipIdx.map fun b ↦ b.1.length - 1 := by
      conv_lhs => rw [← List.zipIdx_map_fst 0 bins, List.map_map]
      rfl
    rw [hcongr, hfst]
  have hall := hpacks.append hempty
  rw [List.append_nil] at hall
  refine ⟨hall, by simp, fun i b hb hi ↦ ?_, fun i b hb hi ↦ ?_, ?_, ?_, ?_⟩
  · rw [List.getElem?_append_left (by omega)] at hb
    exact hne b (List.mem_of_getElem? hb)
  · rw [List.getElem?_append_right (by omega)] at hb
    exact List.eq_of_mem_replicate (List.mem_of_getElem? hb)
  · rw [(hperm.map Prod.snd).nodup_iff, hsnd]
    exact List.nodup_range
  · intro x hx
    have hmem := (hperm.map Prod.snd).mem_iff.mp (List.mem_map_of_mem hx)
    rw [hsnd] at hmem
    exact List.mem_range.mp hmem
  · rw [hspare]
    have hlen := hpacks.perm.length_eq
    rw [List.length_flatten] at hlen
    have hle := sum_sizes_le bins
    omega

/-- The adjusted packing has the least bin count that meets the constraints, or
there are too few sequences for it. -/
theorem adjustBinCount_spec {indices : List ℕ} {bins : List (List ℕ)} (hcap : 0 ≤ capacity)
    (hbins : Filled sequenceLengths capacity indices bins)
    (hsize : ∀ i ∈ indices, 0 ≤ lengthAt sequenceLengths i ∧
      lengthAt sequenceLengths i ≤ capacity) :
    (∃ adjusted, p.adjustBinCount bins = .ok adjusted ∧
      Filled sequenceLengths capacity indices adjusted ∧
      adjusted.length = p.targetBinCount bins.length) ∨
    (indices.length < p.targetBinCount bins.length ∧ p.adjustBinCount bins =
      .error (.notEnoughSequences (p.targetBinCount bins.length) indices.length)) := by
  obtain ⟨hpacks, hne⟩ := hbins
  have htotal : (bins.map List.length).sum = indices.length := by
    rw [← hpacks.perm.length_eq, List.length_flatten]
  have hge := (targetBinCount_spec p bins.length).1
  unfold SequencePacker.adjustBinCount
  simp only [htotal]
  by_cases hsame : p.targetBinCount bins.length = bins.length
  · rw [if_pos hsame]
    exact .inl ⟨bins, rfl, ⟨hpacks, hne⟩, hsame.symm⟩
  · rw [if_neg hsame]
    by_cases hfew : indices.length < p.targetBinCount bins.length
    · rw [if_pos hfew]
      exact .inr ⟨hfew, rfl⟩
    · rw [if_neg hfew]
      have hstart := redistributing_start hpacks hne hcap
        (show bins.length + (p.targetBinCount bins.length - bins.length) ≤ indices.length by omega)
      obtain ⟨t, ht, hend⟩ := hstart.run (p.targetBinCount bins.length - bins.length) hsize
      refine .inl ⟨t.1, ?_, ⟨hend.packs, fun b hb ↦ ?_⟩, ?_⟩
      · rw [Nat.add_zero] at ht
        rw [ht]
        rfl
      · obtain ⟨i, hi⟩ := List.mem_iff_getElem?.mp hb
        have hlt := (List.getElem?_eq_some_iff.mp hi).1
        exact hend.nonempty i b hi (by rw [hend.length] at hlt; omega)
      · rw [hend.length]
        omega

end Adjust

namespace SequencePacker

variable (p : SequencePacker)

/-- Every index stands in one bin, no bin is empty or over its capacity, and
the number of bins is as asked for. -/
structure LegalPacking (sequenceLengths : List ℤ) (bins : List (List ℕ)) : Prop where
  once : bins.flatten.Perm (List.range sequenceLengths.length)
  nonempty : ∀ b ∈ bins, b ≠ []
  fits : ∀ b ∈ bins, (b.map (lengthAt sequenceLengths)).sum ≤ p.binCapacity
  minBinCount : ∀ m ∈ p.minBinCount, m ≤ bins.length
  binCountMultiple : ∀ m ∈ p.binCountMultiple, m ∣ bins.length

def AllowedCount (natural count : ℕ) : Prop :=
  natural ≤ count ∧ (∀ m ∈ p.minBinCount, m ≤ count) ∧ ∀ m ∈ p.binCountMultiple, m ∣ count

variable {p}

/-- A packer accepts sequences that fit in a bin; only the modified first fit asks
for positive ones. -/
theorem packImplementation_filled (algorithm : PackingAlgorithm)
    (hle : ∀ l ∈ sequenceLengths, l ≤ p.binCapacity)
    (hpos : ∀ quotient, algorithm = .modifiedFirstFitDecreasing quotient →
      0 < p.binCapacity ∧ ∀ l ∈ sequenceLengths, 0 < l) :
    ∃ bins, p.packImplementation algorithm sequenceLengths = .ok bins ∧
      Filled sequenceLengths p.binCapacity (List.range sequenceLengths.length) bins := by
  have hvalid : p.validateSequenceLengths sequenceLengths = .ok () := by
    have hnone : sequenceLengths.find? (p.binCapacity < ·) = none := by
      rw [List.find?_eq_none]
      intro l hl
      simpa using hle l hl
    simp only [validateSequenceLengths, hnone]
  cases algorithm with
  | concatenative limit =>
    refine ⟨_, ?_, filled_concatenate limit hle⟩
    simp only [packImplementation, hvalid]
    rfl
  | firstFitDecreasing => exact filled_firstFit (List.perm_insertionSort _ _) hle
  | firstFitShuffle shuffle hperm => exact filled_firstFit (hperm _) hle
  | modifiedFirstFitDecreasing quotient =>
    obtain ⟨hcap, hpositive⟩ := hpos quotient rfl
    refine ⟨_, ?_, filled_modifiedFirstFit quotient hcap.le hle⟩
    have hany : sequenceLengths.any (· ≤ 0) = false := by
      rw [List.any_eq_false]
      intro l hl
      simpa using hpositive l hl
    simp only [packImplementation, modifiedFirstFitDecreasing, if_neg (not_le.mpr hcap), hany,
      hvalid]
    rfl

theorem lengthAt_bounds {capacity : ℤ} (h : ∀ l ∈ sequenceLengths, 0 ≤ l ∧ l ≤ capacity) :
    ∀ i ∈ List.range sequenceLengths.length, 0 ≤ lengthAt sequenceLengths i ∧
      lengthAt sequenceLengths i ≤ capacity := by
  intro i hi
  have hlt := List.mem_range.mp hi
  have hget : lengthAt sequenceLengths i = sequenceLengths[i] := by
    rw [lengthAt, List.getD_eq_getElem?_getD, List.getElem?_eq_getElem hlt, Option.getD_some]
  rw [hget]
  exact h _ (List.getElem_mem hlt)

theorem pack_ok_of_dvd {algorithm : PackingAlgorithm} {natural : List (List ℕ)}
    (himp : p.packImplementation algorithm sequenceLengths = .ok natural)
    (hfilled : Filled sequenceLengths p.binCapacity (List.range sequenceLengths.length) natural)
    (hcap : 0 ≤ p.binCapacity) (h : ∀ l ∈ sequenceLengths, 0 ≤ l ∧ l ≤ p.binCapacity)
    {shards : ℕ} (hshards : p.minBinCount = some shards) (hmultiple : p.binCountMultiple = some shards)
    (hpos : 0 < sequenceLengths.length) (hdiv : shards ∣ sequenceLengths.length) :
    ∃ bins, p.pack algorithm sequenceLengths = .ok bins := by
  have hpack : p.pack algorithm sequenceLengths = p.adjustBinCount natural := by
    simp only [pack, himp]
    rfl
  have hnatural := hfilled.packs.length_le hfilled.nonempty
  rw [List.length_range] at hnatural
  have htarget : p.targetBinCount natural.length ≤ sequenceLengths.length := by
    refine targetBinCount_le hnatural (fun m hm ↦ ?_) fun m hm ↦ ?_
    · rw [hshards] at hm
      obtain rfl := Option.some.inj hm
      exact Nat.le_of_dvd hpos hdiv
    · rw [hmultiple] at hm
      obtain rfl := Option.some.inj hm
      exact hdiv
  have hspec := adjustBinCount_spec hcap hfilled (lengthAt_bounds h) (p := p)
  rw [List.length_range] at hspec
  rcases hspec with ⟨bins, hok, _⟩ | ⟨hfew, _⟩
  · exact ⟨bins, hpack.trans hok⟩
  · omega

/-- A pack returns a legal packing, or no allowed number of bins can be filled. -/
theorem pack_legal (p : SequencePacker) (algorithm : PackingAlgorithm) (sequenceLengths : List ℤ)
    (hcap : 0 < p.binCapacity) (h : ∀ l ∈ sequenceLengths, 0 < l ∧ l ≤ p.binCapacity) :
    ((∃ bins, p.pack algorithm sequenceLengths = .ok bins ∧ p.LegalPacking sequenceLengths bins) ∨
      ∃ natural target, p.packImplementation algorithm sequenceLengths = .ok natural ∧
        p.pack algorithm sequenceLengths =
          .error (.notEnoughSequences target sequenceLengths.length) ∧
        ∀ count, p.AllowedCount natural.length count → sequenceLengths.length < count) ∧
    ∀ shards, p.minBinCount = some shards → p.binCountMultiple = some shards →
      0 < sequenceLengths.length → shards ∣ sequenceLengths.length →
      ∃ bins, p.pack algorithm sequenceLengths = .ok bins := by
  obtain ⟨natural, himp, hfilled⟩ := packImplementation_filled algorithm (fun l hl ↦ (h l hl).2)
    fun _ _ ↦ ⟨hcap, fun l hl ↦ (h l hl).1⟩
  have hpack : p.pack algorithm sequenceLengths = p.adjustBinCount natural := by
    simp only [pack, himp]
    rfl
  have hbounds : ∀ l ∈ sequenceLengths, 0 ≤ l ∧ l ≤ p.binCapacity :=
    fun l hl ↦ ⟨(h l hl).1.le, (h l hl).2⟩
  obtain ⟨hge, hmin, hdvd⟩ := targetBinCount_spec p natural.length
  have hspec := adjustBinCount_spec hcap.le hfilled (lengthAt_bounds hbounds) (p := p)
  rw [List.length_range] at hspec
  constructor
  · rcases hspec with ⟨bins, hok, ⟨hpacks, hne⟩, hlen⟩ | ⟨hfew, herr⟩
    · refine .inl ⟨bins, hpack.trans hok, hpacks.perm, hne, hpacks.fits, ?_, ?_⟩
      · rw [hlen]
        exact hmin
      · rw [hlen]
        exact hdvd
    · refine .inr ⟨natural, _, himp, hpack.trans herr, fun count hcount ↦ ?_⟩
      exact hfew.trans_le (targetBinCount_le hcount.1 hcount.2.1 hcount.2.2)
  · intro shards hshards hmultiple hpos hdiv
    exact pack_ok_of_dvd himp hfilled hcap.le hbounds hshards hmultiple hpos hdiv

def twoShards : SequencePacker := ⟨5, some 2, some 2, by simp⟩

theorem pack_legal_twoShards :
    ∃ bins, twoShards.pack .firstFitDecreasing [1, 1, 2, 1] = .ok bins :=
  (pack_legal twoShards .firstFitDecreasing [1, 1, 2, 1] (by decide) (by decide)).2 2 rfl rfl
    (by decide) (by decide)

end SequencePacker

end NemoRL.Data.Packing
