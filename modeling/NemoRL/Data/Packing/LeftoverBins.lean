import Mathlib
import NemoRL.Data.Packing.Algorithms

namespace NemoRL.Data.Packing.ModifiedFirstFit

open Foundations.Positions Foundations.Packing

variable {binCapacity : ℤ} {bins : List (List Item)} {s : Leftovers} {item : Item}

def load (b : List Item) : ℤ := (b.map Prod.snd).sum

section Original

variable (binCapacity) in
/-- The original loop of phase 5 at one item: the first bin that has room. -/
def placeFirst (ffdBins : List (List Item)) (item : Item) : List (List Item) :=
  match ffdBins.findIdx? fun b ↦ item.2 ≤ remaining binCapacity b with
  | some i => ffdBins.modify i (· ++ [item])
  | none => ffdBins ++ [[item]]

variable (binCapacity) in
def packLeftoversFirst (leftovers : List Item) : List (List Item) :=
  (sortDescending leftovers).foldl (placeFirst binCapacity) []

variable (binCapacity) in
/-- If a bin has room for the item, the first that does is no fuller than any. -/
def FirstIsEmptiest (ffdBins : List (List Item)) (item : Item) : Prop :=
  ∀ b, ffdBins.find? (fun b ↦ item.2 ≤ remaining binCapacity b) = some b →
    ∀ b' ∈ ffdBins, load b ≤ load b'

theorem placeFirst_cases (binCapacity : ℤ) (bins : List (List Item)) (item : Item) :
    ((∀ b ∈ bins, binCapacity - load b < item.2) ∧
      bins.find? (fun b ↦ item.2 ≤ remaining binCapacity b) = none ∧
      placeFirst binCapacity bins item = bins ++ [[item]]) ∨
    ∃ i b, bins[i]? = some b ∧ item.2 ≤ binCapacity - load b ∧
      bins.find? (fun b ↦ item.2 ≤ remaining binCapacity b) = some b ∧
      placeFirst binCapacity bins item = bins.modify i (· ++ [item]) := by
  rw [placeFirst, List.find?_eq_bind_findIdx?_getElem?]
  cases hfind : bins.findIdx? fun b ↦ item.2 ≤ remaining binCapacity b with
  | none =>
    refine .inl ⟨fun b hb ↦ ?_, rfl, rfl⟩
    have hno := List.findIdx?_eq_none_iff.mp hfind b hb
    exact not_le.mp (of_decide_eq_false hno)
  | some i =>
    obtain ⟨hlt, hfits, -⟩ := List.findIdx?_eq_some_iff_getElem.mp hfind
    refine .inr ⟨i, bins[i], List.getElem?_eq_getElem hlt, of_decide_eq_true hfits, ?_, rfl⟩
    exact List.getElem?_eq_getElem hlt

end Original

section Sorted

theorem insert_bisect_perm (l : List ℤ) (x : ℤ) : (l.insertIdx (bisect l x) x).Perm (x :: l) :=
  List.perm_insertIdx _ _ (List.takeWhile_prefix _).length_le

theorem insert_bisect_pairwise {l : List ℤ} (h : l.Pairwise (· ≤ ·)) (x : ℤ) :
    (l.insertIdx (bisect l x) x).Pairwise (· ≤ ·) := by
  induction l with
  | nil => exact List.pairwise_singleton _ _
  | cons a l ih =>
    obtain ⟨hle, hl⟩ := List.pairwise_cons.mp h
    by_cases hax : a ≤ x
    · have hnext : bisect (a :: l) x = bisect l x + 1 := by
        rw [bisect, List.takeWhile_cons, if_pos (decide_eq_true hax), List.length_cons]
        rfl
      rw [hnext, List.insertIdx_succ_cons]
      refine List.pairwise_cons.mpr ⟨fun y hy ↦ ?_, ih hl⟩
      rcases List.mem_cons.mp ((insert_bisect_perm l x).mem_iff.mp hy) with rfl | hy
      · exact hax
      · exact hle y hy
    · have hnow : bisect (a :: l) x = 0 := by
        rw [bisect, List.takeWhile_cons, if_neg (by simpa using hax), List.length_nil]
      rw [hnow, List.insertIdx_zero]
      refine List.pairwise_cons.mpr ⟨fun y hy ↦ ?_, h⟩
      rcases List.mem_cons.mp hy with rfl | hy
      · exact (not_le.mp hax).le
      · exact (not_le.mp hax).le.trans (hle y hy)

/-- The bins of the new loop, none of them empty, from the emptiest on. -/
structure EmptiestFirst (s : Leftovers) : Prop where
  sizes : s.sizes = s.bins.map load
  nonempty : ∀ b ∈ s.bins, b ≠ []
  sorted : s.sizes.Pairwise (· ≤ ·)

theorem load_append (b : List Item) (item : Item) : load (b ++ [item]) = load b + item.2 := by
  rw [load, List.map_append, List.sum_append, List.map_singleton, List.sum_singleton]
  rfl

theorem EmptiestFirst.insertBin {bin : List Item} (hbins : ∀ b ∈ bins, b ≠ [])
    (hsorted : (bins.map load).Pairwise (· ≤ ·)) (hbin : bin ≠ []) :
    EmptiestFirst ⟨bins.insertIdx (bisect (bins.map load) (load bin)) bin,
        (bins.map load).insertIdx (bisect (bins.map load) (load bin)) (load bin)⟩ ∧
      ((bins.insertIdx (bisect (bins.map load) (load bin)) bin).map load).Perm
        (load bin :: bins.map load) := by
  have hmap : (bins.insertIdx (bisect (bins.map load) (load bin)) bin).map load =
      (bins.map load).insertIdx (bisect (bins.map load) (load bin)) (load bin) :=
    List.map_insertIdx ..
  have hcount : bisect (bins.map load) (load bin) ≤ bins.length := by
    have hshort := (List.takeWhile_prefix (· ≤ load bin) (l := bins.map load)).length_le
    rw [List.length_map] at hshort
    exact hshort
  refine ⟨⟨hmap.symm, fun b hb ↦ ?_, insert_bisect_pairwise hsorted _⟩, ?_⟩
  · rcases List.mem_cons.mp ((List.perm_insertIdx _ _ hcount).mem_iff.mp hb) with rfl | hb
    · exact hbin
    · exact hbins b hb
  · rw [hmap]
    exact insert_bisect_perm _ _

theorem EmptiestFirst.place (h : EmptiestFirst s) (hne : s.bins ≠ []) (binCapacity : ℤ)
    (item : Item) :
    EmptiestFirst (s.place binCapacity item) ∧
      ∃ b rest, s.bins = b :: rest ∧ (∀ b' ∈ s.bins, load b ≤ load b') ∧
        ((item.2 ≤ binCapacity - load b ∧
          ((s.place binCapacity item).bins.map load).Perm ((load b + item.2) :: rest.map load)) ∨
        (binCapacity - load b < item.2 ∧
          ((s.place binCapacity item).bins.map load).Perm (item.2 :: s.bins.map load))) := by
  obtain ⟨bins, sizes⟩ := s
  obtain ⟨hsizes, hbins, hsorted⟩ := h
  obtain ⟨b, rest, rfl⟩ := List.exists_cons_of_ne_nil hne
  simp only at hsizes hbins hsorted hne
  subst hsizes
  obtain ⟨hle, hrest⟩ := List.pairwise_cons.mp (List.map_cons ▸ hsorted)
  have hmin : ∀ b' ∈ b :: rest, load b ≤ load b' := by
    intro b' hb'
    rcases List.mem_cons.mp hb' with rfl | hb'
    · exact le_rfl
    · exact hle _ (List.mem_map.mpr ⟨b', hb', rfl⟩)
  unfold Leftovers.place
  simp only [List.map_cons, List.headD_cons, List.tail_cons]
  split_ifs with hfit
  · obtain ⟨hinsert, hperm⟩ := EmptiestFirst.insertBin
      (fun b' hb' ↦ hbins b' (List.mem_cons_of_mem _ hb')) hrest
      (List.append_ne_nil_of_right_ne_nil b (List.cons_ne_nil item []))
    rw [load_append] at hinsert hperm
    exact ⟨hinsert, b, rest, rfl, hmin, .inl ⟨hfit, hperm⟩⟩
  · have hsize : load [item] = item.2 := by
      rw [load, List.map_singleton, List.sum_singleton]
    obtain ⟨hinsert, hperm⟩ := EmptiestFirst.insertBin hbins hsorted (List.cons_ne_nil item [])
    rw [hsize] at hinsert hperm
    exact ⟨hinsert, b, rest, rfl, hmin, .inr ⟨not_le.mp hfit, hperm⟩⟩

end Sorted

section Steps

def SameLoads (s : Leftovers) (ffdBins : List (List Item)) : Prop :=
  ((s.bins.filter fun b ↦ !b.isEmpty).map load).Perm (ffdBins.map load)

theorem EmptiestFirst.sameLoads_iff (h : EmptiestFirst s) :
    SameLoads s bins ↔ (s.bins.map load).Perm (bins.map load) := by
  have hall : (s.bins.filter fun b ↦ !b.isEmpty) = s.bins := by
    refine List.filter_eq_self.mpr fun b hb ↦ ?_
    simpa using h.nonempty b hb
  rw [SameLoads, hall]

theorem map_load_modify (item : Item) {i : ℕ} {b : List Item} (hget : bins[i]? = some b) :
    ((bins.modify i (· ++ [item])).map load).Perm
      ((load b + item.2) :: (bins.eraseIdx i).map load) := by
  have hperm := (modify_perm hget (· ++ [item])).map load
  rw [List.map_cons, load_append] at hperm
  exact hperm

/-- Bins of the same loads stay so at an item exactly where the first bin with room
is an emptiest one. -/
theorem EmptiestFirst.sameLoads_place_iff (h : EmptiestFirst s) (hne : s.bins ≠ [])
    (hsame : SameLoads s bins) (hpos : 0 < item.2) :
    SameLoads (s.place binCapacity item) (placeFirst binCapacity bins item) ↔
      FirstIsEmptiest binCapacity bins item := by
  obtain ⟨hplaced, b, rest, hbins, hmin, hloads⟩ := h.place hne binCapacity item
  rw [hplaced.sameLoads_iff]
  have hsame := h.sameLoads_iff.mp hsame
  have hleast : ∀ b' ∈ bins, load b ≤ load b' := by
    intro b' hb'
    obtain ⟨c, hc, heq⟩ := List.mem_map.mp
      (hsame.mem_iff.mpr (List.mem_map.mpr ⟨b', hb', rfl⟩))
    exact heq ▸ hmin c hc
  have hhas : load b ∈ bins.map load :=
    hsame.mem_iff.mp (List.mem_map.mpr ⟨b, hbins ▸ List.mem_cons_self, rfl⟩)
  rcases placeFirst_cases binCapacity bins item with ⟨hfull, hnone, hfirst⟩ |
    ⟨i, b', hget, hroom, hsome, hfirst⟩
  · obtain ⟨c, hc, hload⟩ := List.mem_map.mp hhas
    have hno : binCapacity - load b < item.2 := hload ▸ hfull c hc
    rcases hloads with ⟨hroom, -⟩ | ⟨-, hperm⟩
    · omega
    · have hsingle : (bins ++ [[item]]).map load = bins.map load ++ [item.2] := by
        rw [List.map_append, List.map_singleton, load, List.map_singleton, List.sum_singleton]
      have hagree : ((s.place binCapacity item).bins.map load).Perm
          ((placeFirst binCapacity bins item).map load) := by
        rw [hfirst, hsingle]
        exact hperm.trans ((hsame.cons item.2).trans (List.perm_append_singleton _ _).symm)
      refine iff_of_true hagree fun b' hb' ↦ ?_
      rw [hnone] at hb'
      cases hb'
  · have hmem : b' ∈ bins := List.mem_of_getElem? hget
    have hle := hleast b' hmem
    have hfirstIff : FirstIsEmptiest binCapacity bins item ↔ load b' = load b := by
      constructor
      · intro hemptiest
        obtain ⟨c, hc, hload⟩ := List.mem_map.mp hhas
        exact le_antisymm (hload ▸ hemptiest b' hsome c hc) hle
      · rintro heq c hc c' hc'
        rw [hsome] at hc
        obtain rfl := Option.some.inj hc
        exact heq ▸ hleast c' hc'
    have hrest : (load b :: rest.map load).Perm (load b' :: (bins.eraseIdx i).map load) := by
      have hperm := (perm_cons_eraseIdx hget).map load
      rw [hbins, List.map_cons] at hsame
      exact hsame.trans hperm
    rw [hfirstIff, hfirst]
    rcases hloads with ⟨-, hperm⟩ | ⟨hno, -⟩
    · have hmodify := map_load_modify item hget
      constructor
      · intro hagree
        by_contra hne'
        have hnext := (hperm.symm.trans hagree).trans hmodify
        have hbefore := hrest.count_eq (load b)
        have hafter := hnext.count_eq (load b)
        rw [List.count_cons_self, List.count_cons_of_ne hne'] at hbefore
        rw [List.count_cons_of_ne (by omega), List.count_cons_of_ne (by omega)] at hafter
        omega
      · intro heq
        rw [heq] at hrest hmodify
        exact hperm.trans (((hrest.cons_inv).cons _).trans hmodify.symm)
    · omega

end Steps

section Runs

variable (binCapacity) in
def SameLoadsFrom (s : Leftovers) (ffdBins : List (List Item)) (items : List Item) : Prop :=
  ∀ n, SameLoads ((items.take n).foldl (Leftovers.place binCapacity) s)
    ((items.take n).foldl (placeFirst binCapacity) ffdBins)

variable (binCapacity) in
def FirstIsEmptiestFrom (ffdBins : List (List Item)) (items : List Item) : Prop :=
  ∀ n item, items[n]? = some item →
    FirstIsEmptiest binCapacity ((items.take n).foldl (placeFirst binCapacity) ffdBins) item

theorem sameLoadsFrom_cons (s : Leftovers) (bins : List (List Item)) (item : Item)
    (items : List Item) : SameLoadsFrom binCapacity s bins (item :: items) ↔ SameLoads s bins ∧
      SameLoadsFrom binCapacity (s.place binCapacity item) (placeFirst binCapacity bins item)
        items := by
  constructor
  · exact fun h ↦ ⟨h 0, fun n ↦ h (n + 1)⟩
  · rintro ⟨hnow, hlater⟩ n
    cases n with
    | zero => exact hnow
    | succ n => exact hlater n

theorem firstIsEmptiestFrom_cons (bins : List (List Item)) (item : Item) (items : List Item) :
    FirstIsEmptiestFrom binCapacity bins (item :: items) ↔ FirstIsEmptiest binCapacity bins item ∧
      FirstIsEmptiestFrom binCapacity (placeFirst binCapacity bins item) items := by
  constructor
  · exact fun h ↦ ⟨h 0 item rfl, fun n x hx ↦ h (n + 1) x hx⟩
  · rintro ⟨hnow, hlater⟩ n x hx
    cases n with
    | zero =>
      obtain rfl := Option.some.inj hx
      exact hnow
    | succ n => exact hlater n x hx

theorem firstIsEmptiest_singleton (b : List Item) (item : Item) :
    FirstIsEmptiest binCapacity [b] item := by
  intro first hfirst b' hb'
  rw [List.mem_singleton.mp (List.mem_of_find?_eq_some hfirst), List.mem_singleton.mp hb']

theorem EmptiestFirst.sameLoadsFrom_iff {items : List Item} (h : EmptiestFirst s)
    (hne : s.bins ≠ []) (hsame : SameLoads s bins) (hpos : ∀ item ∈ items, 0 < item.2) :
    SameLoadsFrom binCapacity s bins items ↔ FirstIsEmptiestFrom binCapacity bins items := by
  induction items generalizing s bins with
  | nil =>
    refine iff_of_true (fun n ↦ ?_) fun n item hitem ↦ ?_
    · rw [List.take_nil]
      exact hsame
    · cases hitem
  | cons item items ih =>
    obtain ⟨hitem, hitems⟩ := List.forall_mem_cons.mp hpos
    rw [sameLoadsFrom_cons, firstIsEmptiestFrom_cons, and_iff_right hsame,
      ← h.sameLoads_place_iff hne hsame hitem]
    obtain ⟨hplaced, b, rest, -, -, hloads⟩ := h.place hne binCapacity item
    have hopen : (s.place binCapacity item).bins ≠ [] := by
      intro hnil
      rw [hnil] at hloads
      rcases hloads with ⟨-, hperm⟩ | ⟨-, hperm⟩
      · exact absurd hperm.length_eq (by simp)
      · exact absurd hperm.length_eq (by simp)
    constructor
    · intro hagree
      exact ⟨hagree 0, (ih hplaced hopen (hagree 0) hitems).mp hagree⟩
    · rintro ⟨hnow, hlater⟩
      exact (ih hplaced hopen hnow hitems).mpr hlater

theorem place_first (hle : item.2 ≤ binCapacity) :
    Leftovers.place binCapacity ⟨[[]], [0]⟩ item = ⟨[[item]], [item.2]⟩ ∧
      placeFirst binCapacity [] item = [[item]] := by
  constructor
  · have hfit : item.2 ≤ binCapacity - 0 := by omega
    simp only [Leftovers.place, List.headD_cons, List.tail_cons, if_pos hfit, bisect,
      List.takeWhile_nil, List.length_nil, List.insertIdx_zero, List.nil_append, zero_add]
  · rfl

/-- The new loop has the bins of the original one all along exactly where no item
finds its first bin with room fuller than another; there it needs no more of them. -/
theorem packLeftovers_agrees_iff (binCapacity : ℤ) (leftovers : List Item)
    (h : ∀ item ∈ leftovers, 0 < item.2 ∧ item.2 ≤ binCapacity) :
    (SameLoadsFrom binCapacity ⟨[[]], [0]⟩ [] (sortDescending leftovers) ↔
      FirstIsEmptiestFrom binCapacity [] (sortDescending leftovers)) ∧
    (FirstIsEmptiestFrom binCapacity [] (sortDescending leftovers) →
      ((packLeftovers binCapacity leftovers).filter fun b ↦ !b.isEmpty).length ≤
        (packLeftoversFirst binCapacity leftovers).length) := by
  have hperm : (sortDescending leftovers).Perm leftovers := List.perm_insertionSort _ _
  have hitems : ∀ item ∈ sortDescending leftovers, 0 < item.2 ∧ item.2 ≤ binCapacity :=
    fun item hitem ↦ h item (hperm.mem_iff.mp hitem)
  have hstart : SameLoads ⟨[[]], [0]⟩ [] := List.Perm.refl _
  have hiff : SameLoadsFrom binCapacity ⟨[[]], [0]⟩ [] (sortDescending leftovers) ↔
      FirstIsEmptiestFrom binCapacity [] (sortDescending leftovers) := by
    cases hsorted : sortDescending leftovers with
    | nil =>
      refine iff_of_true (fun n ↦ ?_) fun n item hitem ↦ ?_
      · rw [List.take_nil]
        exact hstart
      · cases hitem
    | cons item items =>
      rw [hsorted] at hitems
      obtain ⟨hitem, hrest⟩ := List.forall_mem_cons.mp hitems
      obtain ⟨hnew, hold⟩ := place_first hitem.2
      have hone : EmptiestFirst ⟨[[item]], [item.2]⟩ := by
        refine ⟨?_, ?_, List.pairwise_singleton _ _⟩
        · rw [List.map_singleton, load, List.map_singleton, List.sum_singleton]
        · intro b hb
          rw [List.mem_singleton.mp hb]
          exact List.cons_ne_nil _ _
      have hempty : FirstIsEmptiest binCapacity [] item := fun b hb ↦ by cases hb
      rw [sameLoadsFrom_cons, firstIsEmptiestFrom_cons, and_iff_right hstart,
        and_iff_right hempty, hnew, hold]
      exact hone.sameLoadsFrom_iff (List.cons_ne_nil _ _) (List.Perm.refl _)
        fun x hx ↦ (hrest x hx).1
  refine ⟨hiff, fun hcondition ↦ ?_⟩
  have hend := hiff.mpr hcondition (sortDescending leftovers).length
  rw [List.take_length] at hend
  have hlength := hend.length_eq
  rw [List.length_map, List.length_map] at hlength
  exact hlength.le

def sevenLeftovers : List Item := [(0, 4), (1, 4), (2, 4), (3, 3), (4, 3), (5, 2), (6, 2)]

/-- The new loop opens a third bin where the original one fills two. -/
theorem sevenLeftovers_more_bins :
    ((packLeftovers 11 sevenLeftovers).filter fun b ↦ !b.isEmpty).length = 3 ∧
      (packLeftoversFirst 11 sevenLeftovers).length = 2 ∧
      packItems (fun a b ↦ (a : ℚ) / b) 11 sevenLeftovers = packLeftovers 11 sevenLeftovers := by
  refine ⟨?_, ?_, ?_⟩
  · decide
  · decide
  · decide +kernel

def fourLeftovers : List Item := [(0, 7), (1, 6), (2, 4), (3, 3)]

/-- With two bins open the third item finds room in the second, and the last in the first. -/
theorem firstIsEmptiestFrom_four :
    FirstIsEmptiestFrom 10 [] (sortDescending fourLeftovers) := by
  have hsorted : sortDescending fourLeftovers = fourLeftovers := by decide
  have hfirst : placeFirst 10 [] (0, 7) = [[(0, 7)]] := by decide
  have hsecond : placeFirst 10 [[(0, 7)]] (1, 6) = [[(0, 7)], [(1, 6)]] := by decide
  have hthird : placeFirst 10 [[(0, 7)], [(1, 6)]] (2, 4) = [[(0, 7)], [(1, 6), (2, 4)]] := by
    decide
  rw [hsorted, fourLeftovers, firstIsEmptiestFrom_cons, firstIsEmptiestFrom_cons,
    firstIsEmptiestFrom_cons, firstIsEmptiestFrom_cons, hfirst, hsecond, hthird]
  refine ⟨?_, firstIsEmptiest_singleton _ _, ?_, ?_, ?_⟩
  · rintro b ⟨⟩
  · rintro first ⟨⟩
    decide
  · rintro first ⟨⟩
    decide
  · rintro n item ⟨⟩

theorem packLeftovers_agrees_iff_four :
    SameLoadsFrom 10 ⟨[[]], [0]⟩ [] (sortDescending fourLeftovers) ∧
      ((packLeftovers 10 fourLeftovers).filter fun b ↦ !b.isEmpty).length ≤
        (packLeftoversFirst 10 fourLeftovers).length :=
  have h := packLeftovers_agrees_iff 10 fourLeftovers (by decide)
  ⟨h.1.mpr firstIsEmptiestFrom_four, h.2 firstIsEmptiestFrom_four⟩

end Runs

end NemoRL.Data.Packing.ModifiedFirstFit
