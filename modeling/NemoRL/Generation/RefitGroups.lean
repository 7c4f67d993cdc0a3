import Mathlib
import NemoRL.Generation.RefitLoader

namespace NemoRL.Generation.ExpertRefit

open Foundations Foundations.Boxes Foundations.Overlays Foundations.Tensors

variable {δ ν : Type} [Zero ν] (E : ElementTypes δ ν)

def rowOffset (shape : List ℕ) : ShardId → ℕ
  | .w3 => shape.getD 1 0 / 2
  | _ => 0

def rowCount (shape : List ℕ) : ShardId → ℕ
  | .w2 => shape.getD 1 0
  | _ => shape.getD 1 0 / 2

def sliceBox (param : Param δ) (shardId : ShardId) (localId : ℕ) (t : Dense δ ν) : Box :=
  let offset := rowOffset param.shape shardId
  [(localId, localId + 1), (offset, offset + t.shape.getD 0 0), (0, t.shape.getD 1 0)]

/-- The entries of a tensor, at the start of a shard of an expert. -/
def sliceWrite (name : List Char) (param : Param δ) (shardId : ShardId) (localId : ℕ)
    (t : Dense δ ν) : Write (List Char × List ℕ) ν := fun cell ↦
  let box := sliceBox param shardId localId t
  if cell.1 = name ∧ InBox box cell.2 then
    some (E.cast t.dtype param.dtype (t.data (toLocal box cell.2).tail))
  else none

section Groups

variable {name : List Char} {param : Param δ} {shardId : ShardId} {L R C r c : ℕ}

theorem fromStart_natCast (n size : ℕ) : fromStart n size = n := if_neg (by omega)

theorem View.narrow_natCast {v : View} {dim lo hi length : ℕ} (start : ℕ)
    (hv : v.box[dim]? = some (lo, hi)) (h : start + length ≤ hi - lo) :
    v.narrow dim start length =
      some { v with box := v.box.set dim (lo + start, lo + start + length) } := by
  rw [View.narrow, hv, Option.bind_some, fromStart_natCast]
  exact if_pos ⟨by omega, by dsimp only; omega⟩

theorem View.select_natCast (lead : List ℕ) (box : Box) {lo hi index : ℕ} (h : index < hi - lo) :
    View.select ⟨lead, (lo, hi) :: box⟩ index = some ⟨lead ++ [lo + index], box⟩ := by
  rw [View.select]
  simp only [fromStart_natCast]
  exact if_pos ⟨by omega, by omega⟩

theorem targetView_eq (shardId : ShardId) (L R C : ℕ) :
    targetView [L, R, C] shardId = some ⟨[], [(0, L),
      (rowOffset [L, R, C] shardId, rowOffset [L, R, C] shardId + rowCount [L, R, C] shardId),
      (0, C)]⟩ := by
  cases shardId
  · exact (View.narrow_natCast 0 rfl (by simp; omega)).trans (by simp [View.whole, rowOffset, rowCount])
  · simp [targetView, View.whole, rowOffset, rowCount]
  · exact (View.narrow_natCast _ rfl (by simp; omega)).trans (by simp [View.whole, rowOffset, rowCount])

theorem copyToTarget_select {l offset rows : ℕ} {t : Dense δ ν} (hl : l < L)
    (ht : t.shape = [r, c]) (hr : r ≤ rows) (hc : c ≤ C)
    (hoff : offset = rowOffset param.shape shardId) :
    ∃ v, (View.select ⟨[], [(0, L), (offset, offset + rows), (0, C)]⟩ l) = some v ∧
      copyToTarget E name param v t = some (sliceWrite E name param shardId l t) := by
  refine ⟨⟨[l], [(offset, offset + rows), (0, C)]⟩, ?_, ?_⟩
  · rw [View.select_natCast _ _ hl, Nat.zero_add, List.nil_append]
  · have hrow : View.narrow ⟨[l], [(offset, offset + rows), (0, C)]⟩ 0 0 r =
        some ⟨[l], [(offset, offset + r), (0, C)]⟩ :=
      View.narrow_natCast 0 rfl (by omega)
    have hcol : View.narrow ⟨[l], [(offset, offset + r), (0, C)]⟩ 1 0 c =
        some ⟨[l], [(offset, offset + r), (0, c)]⟩ :=
      (View.narrow_natCast 0 rfl (by omega)).trans (by simp)
    simp only [copyToTarget, ht, List.zipIdx_cons, List.zipIdx_nil, List.foldlM_cons,
      List.foldlM_nil, Nat.zero_add, hrow, hcol, Option.bind_eq_bind, Option.bind_some, Option.pure_def]
    rw [if_pos (by rfl)]
    congr 1
    funext cell
    obtain ⟨n, index⟩ := cell
    have hbox : sliceBox param shardId l t = (l, l + 1) :: [(offset, offset + r), (0, c)] := by
      rw [sliceBox, ht, ← hoff]
      rfl
    rw [sliceWrite, hbox]
    cases index with
    | nil =>
      rw [if_neg (by simp), if_neg (by simp [InBox])]
    | cons a index =>
      have hin : InBox ((l, l + 1) :: [(offset, offset + r), (0, c)]) (a :: index) ↔
          [l] <+: a :: index ∧ InBox [(offset, offset + r), (0, c)] index := by
        rw [InBox, List.forall₂_cons, List.cons_prefix_cons]
        exact and_congr_left fun _ ↦ ⟨fun h ↦ ⟨by omega, List.nil_prefix⟩, fun h ↦ by dsimp only; omega⟩
      simp only [hin, toLocal, List.length_singleton, List.drop_one, List.tail_cons, List.zipWith_cons_cons]

theorem sliceWrite_eq_none {cell : List Char × List ℕ} {l : ℕ} {t : Dense δ ν}
    (h : ¬ (cell.1 = name ∧ InBox (sliceBox param shardId l t) cell.2)) :
    sliceWrite E name param shardId l t cell = none := if_neg h

theorem sliceWrite_apart {shardId' : ShardId} {l l' : ℕ} (hne : l ≠ l') (t t' : Dense δ ν) :
    Apart (sliceWrite E name param shardId l t) (sliceWrite E name param shardId' l' t') := by
  intro cell
  by_cases h : InBox (sliceBox param shardId l t) cell.2
  · refine .inr (sliceWrite_eq_none E fun h' ↦ hne ?_)
    obtain ⟨n, index⟩ := cell
    cases index with
    | nil => cases h
    | cons a index =>
      have hl := (List.forall₂_cons.mp h).1
      have hl' := (List.forall₂_cons.mp h'.2).1
      omega
  · exact .inl (sliceWrite_eq_none E fun h' ↦ h h'.2)

theorem stack_eq {ts : List (Dense δ ν)} {d : δ} (hne : ts ≠ []) (hshape : ∀ t ∈ ts, t.shape = [r, c])
    (hd : ∀ t ∈ ts, t.dtype = d) : ∃ t, stack E ts = some t ∧ t.dtype = d ∧
      t.shape = [ts.length, r, c] ∧
      ∀ k u index, ts[k]? = some u → t.data (k :: index) = u.data index := by
  cases ts with
  | nil => exact absurd rfl hne
  | cons t ts =>
    have hresult : E.resultType ((t :: ts).map (·.dtype)) = d := by
      refine E.resultType_uniform d _ ?_ ?_
      · exact List.mem_map.mpr ⟨t, List.mem_cons_self, hd t List.mem_cons_self⟩
      · intro e he
        obtain ⟨u, hu, rfl⟩ := List.mem_map.mp he
        exact hd u hu
    rw [stack, if_pos fun u hu ↦ ?_]
    · refine ⟨_, rfl, hresult, ?_, fun k u index hu ↦ ?_⟩
      · rw [hshape t List.mem_cons_self]
      · simp only [hu, hresult, hd u (List.mem_of_getElem? hu), E.cast_self]
    · rw [hshape u (List.mem_cons_of_mem _ hu), hshape t List.mem_cons_self]

/-- Tensors of two dimensions, stacked and copied into experts that follow each other. -/
theorem copyToTarget_stack {first offset rows : ℕ} {ts : List (Dense δ ν)} {d : δ}
    (hne : ts ≠ []) (hshape : ∀ t ∈ ts, t.shape = [r, c]) (hd : ∀ t ∈ ts, t.dtype = d)
    (hfit : first + ts.length ≤ L) (hr : r ≤ rows) (hc : c ≤ C)
    (hoff : offset = rowOffset param.shape shardId) :
    ∃ v t, View.narrow ⟨[], [(0, L), (offset, offset + rows), (0, C)]⟩ 0 first ts.length = some v ∧
      stack E ts = some t ∧ copyToTarget E name param v t = some (merged (ts.zipIdx.map fun x ↦
        sliceWrite E name param shardId (first + x.2) x.1)) := by
  obtain ⟨t, ht, hdt, hst, hdata⟩ := stack_eq E hne hshape hd
  refine ⟨⟨[], [(first, first + ts.length), (offset, offset + rows), (0, C)]⟩, t, ?_, ht, ?_⟩
  · rw [View.narrow_natCast first rfl (by omega), Nat.zero_add]
    rfl
  · set n := ts.length
    have hexp : View.narrow ⟨[], [(first, first + n), (offset, offset + rows), (0, C)]⟩ 0 0 n =
        some ⟨[], [(first, first + n), (offset, offset + rows), (0, C)]⟩ :=
      View.narrow_natCast 0 rfl (by omega)
    have hrow : View.narrow ⟨[], [(first, first + n), (offset, offset + rows), (0, C)]⟩ 1 0 r =
        some ⟨[], [(first, first + n), (offset, offset + r), (0, C)]⟩ :=
      View.narrow_natCast 0 rfl (by omega)
    have hcol : View.narrow ⟨[], [(first, first + n), (offset, offset + r), (0, C)]⟩ 2 0 c =
        some ⟨[], [(first, first + n), (offset, offset + r), (0, c)]⟩ :=
      (View.narrow_natCast 0 rfl (by omega)).trans (by simp)
    simp only [copyToTarget, hst, List.zipIdx_cons, List.zipIdx_nil, List.foldlM_cons,
      List.foldlM_nil, Nat.zero_add, Nat.reduceAdd, hexp, hrow, hcol, Option.bind_eq_bind,
      Option.bind_some, Option.pure_def]
    rw [if_pos (by rfl)]
    congr 1
    funext cell
    obtain ⟨nm, index⟩ := cell
    have hbox : ∀ k u, ts[k]? = some u → sliceBox param shardId (first + k) u =
        (first + k, first + k + 1) :: [(offset, offset + r), (0, c)] := by
      intro k u hu
      rw [sliceBox, hshape u (List.mem_of_getElem? hu), ← hoff]
      rfl
    have hmem : ∀ x ∈ ts.zipIdx, ts[x.2]? = some x.1 := fun x hx ↦
      List.mem_zipIdx_iff_getElem?.mp hx
    by_cases hin : nm = name ∧ InBox [(first, first + n), (offset, offset + r), (0, c)] index
    · obtain ⟨rfl, hin⟩ := hin
      cases index with
      | nil => cases hin
      | cons a index =>
        obtain ⟨ha, hrest⟩ := List.forall₂_cons.mp hin
        have hk : a - first < ts.length := by omega
        have hu : ts[a - first]? = some ts[a - first] := List.getElem?_eq_getElem hk
        have hwrite : sliceWrite E nm param shardId (first + (a - first)) ts[a - first]
            (nm, a :: index) = some (E.cast d param.dtype
              (ts[a - first].data (toLocal [(offset, offset + r), (0, c)] index))) := by
          rw [sliceWrite, hbox _ _ hu]
          refine (if_pos ⟨rfl, List.forall₂_cons.mpr ⟨by dsimp only; omega, hrest⟩⟩).trans ?_
          rw [hd _ (List.getElem_mem hk)]
          rfl
        have hw := List.mem_map_of_mem
          (f := fun x ↦ sliceWrite E nm param shardId (first + x.2) x.1)
          (List.mem_zipIdx_iff_getElem?.mpr hu : (ts[a - first], a - first) ∈ ts.zipIdx)
        rw [merged_of_mem ?_ hw hwrite, hdt]
        · refine (if_pos ⟨rfl, List.nil_prefix, hin⟩).trans ?_
          have hread := hdata _ _ (toLocal [(offset, offset + r), (0, c)] index) hu
          exact congrArg (fun v ↦ some (E.cast d param.dtype v)) hread
        · exact List.pairwise_map.mpr ((List.pairwise_map.mp (List.nodup_zipIdx_map_snd ts)).imp
            fun hne ↦ sliceWrite_apart E (by omega) _ _)
    · have hnone : ∀ w ∈ ts.zipIdx.map fun x ↦ sliceWrite E name param shardId (first + x.2) x.1,
          w (nm, index) = none := by
        intro w hw
        obtain ⟨x, hx, rfl⟩ := List.mem_map.mp hw
        refine sliceWrite_eq_none E fun h ↦ hin ⟨h.1, ?_⟩
        have hlt : x.2 < ts.length := (List.getElem?_eq_some_iff.mp (hmem x hx)).1
        rw [hbox _ _ (hmem x hx)] at h
        cases index with
        | nil => cases h.2
        | cons a index =>
          obtain ⟨ha, hrest⟩ := List.forall₂_cons.mp h.2
          exact List.forall₂_cons.mpr ⟨by dsimp only at ha ⊢; omega, hrest⟩
      rw [merged_of_forall_none hnone]
      exact if_neg fun h ↦ hin ⟨h.1, h.2.2⟩

/-- What is needed of the tensors of a group. -/
structure GroupFits (param : Param δ) (shardId : ShardId) (items : List (ℕ × Dense δ ν)) : Prop where
  rank : param.shape.length = 3
  nodup : (items.map Prod.fst).Nodup
  uniform : ∀ x ∈ items, ∀ y ∈ items, x.2.dtype = y.2.dtype ∧ x.2.shape = y.2.shape
  fits : ∀ x ∈ items, x.1 < param.shape.getD 0 0 ∧ x.2.shape.length = 2 ∧
    x.2.shape.getD 0 0 ≤ rowCount param.shape shardId ∧ x.2.shape.getD 1 0 ≤ param.shape.getD 2 0

omit [Zero ν] in
theorem GroupFits.perm {items items' : List (ℕ × Dense δ ν)} (h : GroupFits param shardId items)
    (hp : items.Perm items') : GroupFits param shardId items' where
  rank := h.rank
  nodup := (hp.map _).nodup_iff.mp h.nodup
  uniform := fun x hx y hy ↦ h.uniform x (hp.mem_iff.mpr hx) y (hp.mem_iff.mpr hy)
  fits := fun x hx ↦ h.fits x (hp.mem_iff.mpr hx)

theorem exists_of_length_three {l : List ℕ} (h : l.length = 3) :
    l = [l.getD 0 0, l.getD 1 0, l.getD 2 0] := by
  obtain ⟨a, b, c, rfl⟩ := List.length_eq_three.mp h
  rfl

theorem exists_of_length_two {l : List ℕ} (h : l.length = 2) : l = [l.getD 0 0, l.getD 1 0] := by
  obtain ⟨a, b, rfl⟩ := List.length_eq_two.mp h
  rfl

theorem GroupFits.apart {items : List (ℕ × Dense δ ν)} (h : GroupFits param shardId items) :
    (items.map fun x ↦ sliceWrite E name param shardId x.1 x.2).Pairwise Apart :=
  List.pairwise_map.mpr ((List.pairwise_map.mp h.nodup).imp fun hne ↦ sliceWrite_apart E hne _ _)

theorem loadDestinationLocalExpertGroup_eq {items : List (ℕ × Dense δ ν)} (hne : items ≠ [])
    (h : GroupFits param shardId items) (m : Memory ν) :
    loadDestinationLocalExpertGroup E name param shardId
      (items.map fun x ↦ ((x.1 : ℤ), x.2)) m =
        some (applyAll m (items.map fun x ↦ sliceWrite E name param shardId x.1 x.2)) := by
  set sorted := Classes.sortBy Prod.fst (items.map fun x ↦ ((x.1 : ℤ), x.2))
  have hperm : sorted.Perm (items.map fun x ↦ ((x.1 : ℤ), x.2)) := Classes.sortBy_perm ..
  obtain ⟨found, hfound, hcast⟩ : ∃ found : List (ℕ × Dense δ ν), found.Perm items ∧
      sorted = found.map fun x ↦ ((x.1 : ℤ), x.2) := by
    refine ⟨sorted.map fun x ↦ (x.1.toNat, x.2), ?_, ?_⟩
    · simpa [Function.comp_def] using hperm.map fun x : ℤ × Dense δ ν ↦ (x.1.toNat, x.2)
    · rw [List.map_map]
      refine (List.map_id' sorted).symm.trans (List.map_congr_left fun x hx ↦ ?_)
      obtain ⟨y, hy, rfl⟩ := List.mem_map.mp (hperm.mem_iff.mp hx)
      rfl
  have hfits := h.perm hfound.symm
  rw [← applyAll_perm (hfits.apart E) (hfound.map _)]
  have hshape := exists_of_length_three h.rank
  set L := param.shape.getD 0 0
  set R := param.shape.getD 1 0
  set C := param.shape.getD 2 0
  set offset := rowOffset param.shape shardId
  set rows := rowCount param.shape shardId
  have htarget : targetView param.shape shardId =
      some ⟨[], [(0, L), (offset, offset + rows), (0, C)]⟩ := by
    have hview := targetView_eq shardId L R C
    rwa [← hshape] at hview
  have hall : ∀ x ∈ found, x.2.shape = [x.2.shape.getD 0 0, x.2.shape.getD 1 0] := fun x hx ↦
    exists_of_length_two (hfits.fits x hx).2.1
  cases hlist : found with
  | nil => exact absurd (hlist ▸ hfound).nil_eq.symm hne
  | cons x rest =>
    have hx : x ∈ found := hlist ▸ List.mem_cons_self
    set ts := found.map Prod.snd
    have hfirst : (sorted.map Prod.fst).head? = some (x.1 : ℤ) := by
      rw [hcast, hlist]
      rfl
    have hsnd : sorted.map Prod.snd = ts := by
      rw [hcast, List.map_map]
      rfl
    have hlen : (sorted.map Prod.fst).length = ts.length := by
      rw [hcast, List.length_map, List.length_map, List.length_map]
    rw [loadDestinationLocalExpertGroup, htarget]
    simp only [Option.bind_eq_bind, Option.bind_some]
    rw [hfirst, Option.bind_some, hlen, ← hlist]
    split_ifs with hcontig
    · -- the experts follow each other, so the first number fixes them all
      have hget : ∀ y ∈ found.zipIdx, y.1.1 = x.1 + y.2 := by
        intro y hy
        have hk : found[y.2]? = some y.1 := List.mem_zipIdx_iff_getElem?.mp hy
        have hlt : y.2 < ts.length := by
          rw [List.length_map]
          exact (List.getElem?_eq_some_iff.mp hk).1
        have hids : (sorted.map Prod.fst)[y.2]? = some (x.1 + y.2 : ℤ) := by
          rw [hcontig, List.getElem?_map, List.getElem?_range hlt]
          rfl
        rw [hcast, List.getElem?_map, List.getElem?_map, hk] at hids
        have hid : (y.1.1 : ℤ) = x.1 + y.2 := Option.some.inj hids
        omega
      have hwrites : ts.zipIdx.map (fun y ↦ sliceWrite E name param shardId (x.1 + y.2) y.1) =
          found.map fun y ↦ sliceWrite E name param shardId y.1 y.2 := by
        rw [List.zipIdx_map, List.map_map]
        conv_rhs => rw [← List.zipIdx_map_fst 0 found, List.map_map]
        exact List.map_congr_left fun y hy ↦ by simp only [Function.comp_def, Prod.map, id, hget y hy]
      have hfit : x.1 + ts.length ≤ L := by
        have hlast : found.length - 1 < found.length := by
          rw [hlist]
          exact Nat.sub_lt (by simp) Nat.one_pos
        have hin := hget (found[found.length - 1], found.length - 1)
          (List.mem_zipIdx_iff_getElem?.mpr (List.getElem?_eq_getElem hlast))
        have hl := (hfits.fits _ (List.getElem_mem hlast)).1
        have hts : ts.length = found.length := List.length_map _
        dsimp only at hin
        omega
      have hts : ∀ t ∈ ts, t.shape = [x.2.shape.getD 0 0, x.2.shape.getD 1 0] ∧
          t.dtype = x.2.dtype := by
        intro t ht
        obtain ⟨y, hy, rfl⟩ := List.mem_map.mp ht
        obtain ⟨hd, hs⟩ := hfits.uniform y hy x hx
        exact ⟨hs.trans (hall x hx), hd⟩
      obtain ⟨v, t, hv, ht, hcopy⟩ := copyToTarget_stack E (List.ne_nil_of_mem (List.mem_map_of_mem hx))
        (fun t ht ↦ (hts t ht).1) (fun t ht ↦ (hts t ht).2) hfit (hfits.fits x hx).2.2.1
        (hfits.fits x hx).2.2.2 (rfl : offset = rowOffset param.shape shardId)
      rw [hv, Option.bind_some, hsnd, ht, Option.bind_some, hcopy, Option.bind_some, hwrites,
        apply_merged (hfits.apart E)]
      rfl
    · change List.foldlM _ m sorted = _
      rw [hcast, List.foldlM_map, List.map_eq_flatMap]
      refine foldlM_applyAll fun y hy m ↦ ?_
      obtain ⟨v, hv, hcopy⟩ := copyToTarget_select E (hfits.fits y hy).1 (hall y hy)
        (hfits.fits y hy).2.2.1 (hfits.fits y hy).2.2.2 (rfl : offset = rowOffset param.shape shardId)
      rw [hv, Option.bind_some, hcopy]
      rfl

/-- The entries of a group after either way to load it: each tensor is in its expert, in the type
of the parameter, and nothing else has changed. -/
theorem loadDestinationLocalExpertGroup_places {items : List (ℕ × Dense δ ν)} (hne : items ≠ [])
    (h : GroupFits param shardId items) (m : Memory ν) :
    ∃ m', loadDestinationLocalExpertGroup E name param shardId
        (items.map fun x ↦ ((x.1 : ℤ), x.2)) m = some m' ∧
      (∀ x ∈ items, ∀ i j, i < x.2.shape.getD 0 0 → j < x.2.shape.getD 1 0 →
        m' (name, [x.1, rowOffset param.shape shardId + i, j]) =
          E.cast x.2.dtype param.dtype (x.2.data [i, j])) ∧
      ∀ cell, (∀ x ∈ items, ¬ (cell.1 = name ∧ InBox (sliceBox param shardId x.1 x.2) cell.2)) →
        m' cell = m cell := by
  refine ⟨_, loadDestinationLocalExpertGroup_eq E hne h m, fun x hx i j hi hj ↦ ?_,
    fun cell hcell ↦ ?_⟩
  · refine applyAll_of_mem (h.apart E) (List.mem_map_of_mem hx) ?_
    rw [sliceWrite, if_pos]
    · simp [sliceBox, toLocal]
    · refine ⟨rfl, .cons ⟨le_rfl, Nat.lt_succ_self _⟩ (.cons ⟨?_, ?_⟩ (.cons ⟨?_, ?_⟩ .nil))⟩
      · exact Nat.le_add_right _ _
      · exact Nat.add_lt_add_left hi _
      · exact Nat.zero_le _
      · exact hj
  · refine applyAll_of_forall_none fun write hwrite ↦ ?_
    obtain ⟨x, hx, rfl⟩ := List.mem_map.mp hwrite
    exact sliceWrite_eq_none E (hcell x hx)

end Groups

def integersOnly : ElementTypes Unit ℤ where
  isFloatingPoint _ := true
  cast _ _ v := v
  resultType _ := ()
  cast_zero _ _ := rfl
  cast_self _ _ := rfl
  resultType_uniform _ _ _ _ := rfl
  resultType_congr _ _ _ := rfl

def gateAndUp : Param Unit := ⟨(), [3, 4, 2], false, none⟩

def filled (v : ℤ) : Dense Unit ℤ := ⟨(), [2, 2], fun _ ↦ v⟩

/-- The rows of the last two experts, given in the other order. -/
theorem loadDestinationLocalExpertGroup_places_lastTwo :
    ∃ m', loadDestinationLocalExpertGroup integersOnly ['w'] gateAndUp .w3
        [(2, filled 7), (1, filled 5)] (fun _ ↦ 0) = some m' ∧
      m' (['w'], [1, 3, 1]) = 5 ∧ m' (['w'], [2, 2, 0]) = 7 := by
  have hfits : GroupFits gateAndUp .w3 [(2, filled 7), (1, filled 5)] := by
    refine ⟨rfl, by decide, fun x hx y hy ↦ ?_, fun x hx ↦ ?_⟩
    · rcases List.mem_pair.mp hx with rfl | rfl <;> rcases List.mem_pair.mp hy with rfl | rfl <;>
        exact ⟨rfl, rfl⟩
    · rcases List.mem_pair.mp hx with rfl | rfl <;>
        exact ⟨by decide, rfl, by decide, by decide⟩
  obtain ⟨m', hload, hplaced, -⟩ := loadDestinationLocalExpertGroup_places integersOnly
    (List.cons_ne_nil _ _) hfits fun _ ↦ 0
  exact ⟨m', hload, hplaced _ (List.mem_cons_of_mem _ List.mem_cons_self) 1 1 Nat.one_lt_two
    Nat.one_lt_two, hplaced _ List.mem_cons_self 0 0 Nat.two_pos Nat.two_pos⟩

section Batches

variable {W : Worker δ}

abbrev NamedWeight (δ ν : Type) := List Char × Dense δ ν

/-- A tensor and the expert of a parameter that it is put into. -/
structure Landing (δ ν : Type) where
  name : List Char
  param : Param δ
  shardId : ShardId
  localId : ℕ
  tensor : Dense δ ν

namespace Landing

def slot (x : Landing δ ν) : (List Char × ShardId) × ℕ := ((x.name, x.shardId), x.localId)

def box (x : Landing δ ν) : Box := sliceBox x.param x.shardId x.localId x.tensor

def Covers (x : Landing δ ν) (cell : List Char × List ℕ) : Prop :=
  cell.1 = x.name ∧ InBox x.box cell.2

def write (x : Landing δ ν) : Write (List Char × List ℕ) ν :=
  sliceWrite E x.name x.param x.shardId x.localId x.tensor

def toPlaced (x : Landing δ ν) : Placed δ ν := ⟨x.name, x.shardId, x.localId, x.tensor⟩

/-- The tensor has two dimensions and fits into its expert; the name of the parameter says
which of its shards there are. -/
structure Fits (W : Worker δ) (x : Landing δ ν) : Prop where
  param : Dict.get W.namedParameters x.name = some x.param
  leaf : ".w2_weight".toList <:+ x.name ↔ x.shardId = .w2
  rank : x.param.shape.length = 3
  local_lt : x.localId < x.param.shape.getD 0 0
  matrix : x.tensor.shape.length = 2
  rows : x.tensor.shape.getD 0 0 ≤ rowCount x.param.shape x.shardId
  cols : x.tensor.shape.getD 1 0 ≤ x.param.shape.getD 2 0

/-- Two landings do not meet, and within a shard of a parameter they are alike. -/
structure Compatible (x y : Landing δ ν) : Prop where
  slot_ne : x.slot ≠ y.slot
  alike : x.name = y.name → x.shardId = y.shardId →
    x.tensor.dtype = y.tensor.dtype ∧ x.tensor.shape = y.tensor.shape

omit [Zero ν] in
theorem Compatible.symm {x y : Landing δ ν} (h : x.Compatible y) : y.Compatible x :=
  ⟨h.slot_ne.symm, fun hn hs ↦ (h.alike hn.symm hs.symm).imp Eq.symm Eq.symm⟩

omit [Zero ν] in
theorem not_meet {x y : Landing δ ν} (hx : x.Fits W) (hy : y.Fits W) (hne : x.slot ≠ y.slot)
    {cell : List Char × List ℕ} (hin : x.Covers cell) : ¬ y.Covers cell := by
  refine fun h ↦ hne ?_
  obtain ⟨hname, hbox⟩ := hin
  obtain ⟨hname', hbox'⟩ := h
  have hsame : x.name = y.name := hname.symm.trans hname'
  have hparam : y.param = x.param := by
    have hget := hy.param
    rw [← hsame, hx.param] at hget
    exact (Option.some.inj hget).symm
  have hleaf : x.shardId = .w2 ↔ y.shardId = .w2 := by rw [← hx.leaf, ← hy.leaf, hsame]
  have hrows := hx.rows
  have hrows' := hy.rows
  simp only [box, sliceBox, hparam] at hbox hbox' hrows hrows'
  obtain ⟨n, index⟩ := cell
  obtain ⟨a, rest, hl, hrest, rfl⟩ := List.forall₂_cons_left_iff.mp hbox
  obtain ⟨b, rest, hr, hrest, rfl⟩ := List.forall₂_cons_left_iff.mp hrest
  obtain ⟨hl', hrest'⟩ := List.forall₂_cons.mp hbox'
  have hr' := (List.forall₂_cons.mp hrest').1
  have hlocal : x.localId = y.localId := by omega
  have hshard : x.shardId = y.shardId := by
    rcases hxs : x.shardId with _ | _ | _ <;> rcases hys : y.shardId with _ | _ | _ <;>
      simp only [hxs, hys, rowOffset, rowCount, reduceCtorEq, iff_true, iff_false, not_true_eq_false]
        at hr hr' hrows hrows' hleaf ⊢ <;> omega
  simp only [slot, hsame, hshard, hlocal]

theorem write_apart {x y : Landing δ ν} (hx : x.Fits W) (hy : y.Fits W) (hne : x.slot ≠ y.slot) :
    Apart (x.write E) (y.write E) := by
  intro cell
  by_cases hin : x.Covers cell
  · exact .inr (sliceWrite_eq_none E (not_meet hx hy hne hin))
  · exact .inl (sliceWrite_eq_none E hin)

end Landing

/-- What becomes of the weights of a batch: they land, or are left to the loader of the model. -/
structure Settled (W : Worker δ) (fate : NamedWeight δ ν → Option (Landing δ ν))
    (batch : List (NamedWeight δ ν)) : Prop where
  remaining : ∀ w ∈ batch, fate w = none → destined W w.1 w.2 = .ok .remaining
  placed : ∀ w ∈ batch, ∀ x, fate w = some x → x.tensor = w.2 ∧ x.Fits W ∧
    destined W w.1 w.2 = .ok (.placed x.name x.shardId x.localId)
  compatible : (batch.filterMap fate).Pairwise Landing.Compatible

variable {fate : NamedWeight δ ν → Option (Landing δ ν)} {batch : List (NamedWeight δ ν)}

def destinedOf : Option (Landing δ ν) → Destined
  | none => .remaining
  | some x => .placed x.name x.shardId x.localId

omit [Zero ν] in
theorem Settled.mapM_destined (h : Settled W fate batch) :
    (batch.mapM fun w ↦ (destined W w.1 w.2).map fun d ↦ (w, d)) =
      .ok (batch.map fun w ↦ (w, destinedOf (fate w))) := by
  refine Blocks.mapM_pure_of_forall fun w hw ↦ ?_
  cases hfate : fate w with
  | none => rw [h.remaining w hw hfate]; rfl
  | some x => rw [(h.placed w hw x hfate).2.2]; rfl

omit [Zero ν] in
theorem Settled.placed_eq (h : ∀ w ∈ batch, ∀ x, fate w = some x → x.tensor = w.2) :
    ((batch.map fun w ↦ (w, destinedOf (fate w))).filterMap fun x ↦ x.2.toPlaced x.1.2) =
      (batch.filterMap fate).map Landing.toPlaced := by
  rw [List.filterMap_map, List.map_filterMap]
  refine List.filterMap_congr fun w hw ↦ ?_
  cases hfate : fate w with
  | none => simp [hfate, destinedOf, Destined.toPlaced]
  | some x =>
    simp [hfate, destinedOf, Destined.toPlaced, Landing.toPlaced, h w hw x hfate]

omit [Zero ν] in
theorem Settled.remaining_eq (batch : List (NamedWeight δ ν)) :
    ((batch.map fun w ↦ (w, destinedOf (fate w))).filter (·.2.isRemaining)).map Prod.fst =
      batch.filter fun w ↦ (fate w).isNone := by
  rw [List.filter_map, List.map_map]
  refine (List.map_id' _).trans ?_
  congr 1
  funext w
  cases hfate : fate w <;> simp [hfate, destinedOf, Destined.isRemaining]

theorem loadGroup_eq {k : List Char × ShardId} {g : List (Landing δ ν)} (hne : g ≠ [])
    (hk : ∀ x ∈ g, x.slot.1 = k) (hfits : ∀ x ∈ g, x.Fits W) (hg : g.Pairwise Landing.Compatible)
    (m : Memory ν) :
    loadGroup W E m (k, g.map Landing.toPlaced) = some (applyAll m (g.map (·.write E))) := by
  obtain ⟨x, hx⟩ := List.exists_mem_of_ne_nil g hne
  have hshard : ∀ y ∈ g, y.name = k.1 ∧ y.shardId = k.2 := fun y hy ↦
    ⟨congrArg Prod.fst (hk y hy), congrArg Prod.snd (hk y hy)⟩
  have hget : Dict.get W.namedParameters k.1 = some x.param := (hshard x hx).1 ▸ (hfits x hx).param
  have hparam : ∀ y ∈ g, y.param = x.param := fun y hy ↦
    Option.some.inj ((hfits y hy).param.symm.trans ((hshard y hy).1 ▸ hget))
  have halike : g.Pairwise fun y z ↦
      y.tensor.dtype = z.tensor.dtype ∧ y.tensor.shape = z.tensor.shape :=
    hg.imp_of_mem fun hy hz h ↦ h.alike ((hshard _ hy).1.trans (hshard _ hz).1.symm)
      ((hshard _ hy).2.trans (hshard _ hz).2.symm)
  have hgroup : GroupFits x.param k.2 (g.map fun y ↦ (y.localId, y.tensor)) := by
    refine ⟨(hfits x hx).rank, ?_, ?_, ?_⟩
    · rw [List.map_map]
      refine List.pairwise_map.mpr (hg.imp_of_mem fun {y z} hy hz h hlocal ↦ h.slot_ne ?_)
      exact Prod.ext ((hk y hy).trans (hk z hz).symm) hlocal
    · intro a ha b hb
      obtain ⟨y, hy, rfl⟩ := List.mem_map.mp ha
      obtain ⟨z, hz, rfl⟩ := List.mem_map.mp hb
      exact halike.forall_of_forall_of_flip (fun _ _ ↦ ⟨rfl, rfl⟩)
        (halike.imp fun h ↦ ⟨h.1.symm, h.2.symm⟩) hy hz
    · intro a ha
      obtain ⟨y, hy, rfl⟩ := List.mem_map.mp ha
      have h := hfits y hy
      rw [← hparam y hy, ← (hshard y hy).2]
      exact ⟨h.local_lt, h.matrix, h.rows, h.cols⟩
  have hitems : (g.map Landing.toPlaced).map (fun x ↦ (x.localExpertId, x.tensor)) =
      (g.map fun y ↦ (y.localId, y.tensor)).map fun x ↦ ((x.1 : ℤ), x.2) := by
    rw [List.map_map, List.map_map]
    rfl
  have hwrites : (g.map fun y ↦ (y.localId, y.tensor)).map
      (fun a ↦ sliceWrite E k.1 x.param k.2 a.1 a.2) = g.map (·.write E) := by
    rw [List.map_map]
    refine List.map_congr_left fun y hy ↦ ?_
    rw [Landing.write, (hshard y hy).1, (hshard y hy).2, hparam y hy]
    rfl
  rw [loadGroup, hget, Option.bind_some, hitems,
    loadDestinationLocalExpertGroup_eq E (by simpa using hne) hgroup m]
  exact congrArg (fun ws ↦ some (applyAll m ws)) hwrites

omit [Zero ν] in
theorem Settled.fits (h : Settled W fate batch) : ∀ x ∈ batch.filterMap fate, x.Fits W := by
  intro x hx
  obtain ⟨w, hw, hfate⟩ := List.mem_filterMap.mp hx
  exact (h.placed w hw x hfate).2.1

theorem Settled.apart (h : Settled W fate batch) :
    ((batch.filterMap fate).map (·.write E)).Pairwise Apart :=
  List.pairwise_map.mpr (h.compatible.imp_of_mem fun hx hy hxy ↦
    Landing.write_apart E (h.fits _ hx) (h.fits _ hy) hxy.slot_ne)

theorem Settled.loadShardedExpertWeightGroups_eq (h : Settled W fate batch) (m : Memory ν) :
    loadShardedExpertWeightGroups W E m batch =
      .ok (applyAll m ((batch.filterMap fate).map (·.write E)),
        batch.filter fun w ↦ (fate w).isNone) := by
  set landings := batch.filterMap fate
  set groups := Classes.groupBy (fun x : Landing δ ν ↦ x.slot.1) landings
  have hgroups : Classes.groupBy (fun x : Placed δ ν ↦ (x.name, x.shardId))
      (landings.map Landing.toPlaced) = groups.map fun item ↦ (item.1, item.2.map Landing.toPlaced) :=
    Classes.groupBy_map ..
  have hrun : (groups.map fun item ↦ (item.1, item.2.map Landing.toPlaced)).foldlM
      (loadGroup W E) m = some (applyAll m (groups.flatMap fun item ↦ item.2.map (·.write E))) := by
    rw [List.foldlM_map]
    refine foldlM_applyAll fun item hitem m ↦ ?_
    obtain ⟨hk, hg⟩ := Classes.mem_groupBy hitem
    obtain ⟨x, hx, hxk⟩ := List.mem_map.mp hk
    have hsub : item.2.Sublist landings := hg ▸ List.filter_sublist
    refine loadGroup_eq E (List.ne_nil_of_mem (a := x) ?_) (fun y hy ↦ ?_)
      (fun y hy ↦ h.fits y (hsub.subset hy)) (h.compatible.sublist hsub) m
    · rw [hg]
      exact List.mem_filter.mpr ⟨hx, by simpa using hxk⟩
    · rw [hg] at hy
      simpa using (List.mem_filter.mp hy).2
  have hall : (groups.flatMap fun item ↦ item.2.map (·.write E)).Perm (landings.map (·.write E)) := by
    have hmap : (groups.flatMap fun item ↦ item.2.map (·.write E)) =
        (groups.flatMap Prod.snd).map (·.write E) := by
      rw [List.map_flatMap]
    rw [hmap]
    exact (Classes.groupBy_perm _ landings).map _
  rw [loadShardedExpertWeightGroups, h.mapM_destined]
  simp only [bind, Except.bind]
  rw [Settled.placed_eq fun w hw x hfate ↦ (h.placed w hw x hfate).1, hgroups, hrun,
    Settled.remaining_eq, applyAll_perm (h.apart E) hall.symm]
  rfl

omit [Zero ν] in
theorem Settled.perm {batch' : List (NamedWeight δ ν)} (h : Settled W fate batch)
    (hp : batch.Perm batch') : Settled W fate batch' where
  remaining := fun w hw ↦ h.remaining w (hp.mem_iff.mpr hw)
  placed := fun w hw ↦ h.placed w (hp.mem_iff.mpr hw)
  compatible := h.compatible.perm (hp.filterMap fate) Landing.Compatible.symm

omit [Zero ν] in
theorem Settled.sublist {batch' : List (NamedWeight δ ν)} (h : Settled W fate batch)
    (hs : batch'.Sublist batch) : Settled W fate batch' where
  remaining := fun w hw ↦ h.remaining w (hs.subset hw)
  placed := fun w hw ↦ h.placed w (hs.subset hw)
  compatible := h.compatible.sublist (hs.filterMap fate)

/-- A refit: however the weights are batched, all landings are written. -/
theorem Settled.loadBatches_eq {batches : List (List (NamedWeight δ ν))}
    (h : Settled W fate batches.flatten) (hW : W.isFp8Model = false) (m : Memory ν) :
    loadBatches W E m batches = .ok (applyAll m ((batches.flatten.filterMap fate).map (·.write E)),
      batches.map (·.filter fun w ↦ (fate w).isNone)) := by
  induction batches generalizing m with
  | nil => rfl
  | cons batch batches ih =>
    rw [List.flatten_cons] at h ⊢
    have hbatch := (h.sublist (List.sublist_append_left ..)).loadShardedExpertWeightGroups_eq E m
    have hrest := ih (h.sublist (List.sublist_append_right ..))
    rw [loadBatches, loadShardedExpertWeights, hW, if_neg (by simp), hbatch]
    simp only [bind, Except.bind]
    rw [hrest, List.filterMap_append, List.map_append, applyAll_append]
    rfl

end Batches

end NemoRL.Generation.ExpertRefit
