import Mathlib
import NemoRL.Foundations.Tensors

namespace NemoRL.Foundations.Tensors

variable {δ ν : Type*} [Zero ν]

section Convert

variable {E : ElementTypes δ ν} {dim : ℤ} {e d : δ}

def convert (E : ElementTypes δ ν) (d : δ) (t : Tensor δ ν) : Tensor δ ν where
  dtype := d
  shape := t.shape
  entry index := E.cast t.dtype d (t.entry index)
  outside index h := by rw [t.outside index h, E.cast_zero]

theorem convert_self (t : Tensor δ ν) : convert E t.dtype t = t := by
  apply Tensor.ext
  · rfl
  · rfl
  · funext index
    exact E.cast_self _ _

theorem kept_map {f : Tensor δ ν → Tensor δ ν} (ts : List (Tensor δ ν))
    (hf : ∀ t ∈ ts, (f t).shape = [0] ↔ t.shape = [0]) : kept (ts.map f) = (kept ts).map f := by
  rw [kept, kept, List.filter_map]
  congr 1
  apply List.filter_congr
  intro t ht
  simp only [Function.comp_apply, ne_eq, hf t ht]

theorem catSize_map {f : Tensor δ ν → Tensor δ ν} {k : ℕ} (ts : List (Tensor δ ν))
    (hf : ∀ t ∈ ts, (f t).shape.getD k 0 = t.shape.getD k 0) :
    catSize k (ts.map f) = catSize k ts := by
  rw [catSize, List.map_map]
  exact congrArg List.sum (List.map_congr_left hf)

theorem catEntry_convert {k : ℕ} {ts : List (Tensor δ ν)} (h : ∀ t ∈ ts, t.dtype = e)
    (index : List ℕ) :
    catEntry E k d (ts.map (convert E d)) index = E.cast e d (catEntry E k e ts index) := by
  induction ts generalizing index with
  | nil => exact (E.cast_zero e d).symm
  | cons t ts ih =>
    obtain ⟨hhead, hrest⟩ := List.forall_mem_cons.mp h
    rw [List.map_cons, catEntry, catEntry, ih hrest]
    show (if index.getD k 0 < t.shape.getD k 0 then
      E.cast d d (E.cast t.dtype d (t.entry index)) else _) = _
    rw [E.cast_self, hhead, E.cast_self]
    exact (apply_ite (E.cast e d) _ _ _).symm

theorem resultType_of_uniform {ts : List (Tensor δ ν)} (hne : ts ≠ [])
    (h : ∀ t ∈ ts, t.dtype = e) : E.resultType (ts.map (·.dtype)) = e := by
  obtain ⟨t, ht⟩ := List.exists_mem_of_ne_nil ts hne
  apply E.resultType_uniform
  · rw [← h t ht]
    exact List.mem_map_of_mem ht
  · intro d hd
    obtain ⟨u, hu, rfl⟩ := List.mem_map.mp hd
    exact h u hu

/-- Tensors of one type are converted before they are concatenated or after. -/
theorem cat_convert {ts : List (Tensor δ ν)} {y : Tensor δ ν} (h : ∀ t ∈ ts, t.dtype = e)
    (hcat : cat E dim ts = some y) :
    y.dtype = e ∧ cat E dim (ts.map (convert E d)) = some (convert E d y) := by
  obtain ⟨hne, hcases⟩ := cat_eq_some hcat
  have htype : E.resultType (ts.map (·.dtype)) = e := resultType_of_uniform hne h
  have htype' : E.resultType ((ts.map (convert E d)).map (·.dtype)) = d := by
    apply resultType_of_uniform (by simpa using hne)
    intro t ht
    obtain ⟨u, -, rfl⟩ := List.mem_map.mp ht
    rfl
  have hmap : kept (ts.map (convert E d)) = (kept ts).map (convert E d) :=
    kept_map ts fun _ _ ↦ Iff.rfl
  rcases hcases with ⟨hkept, rfl⟩ | ⟨t, rest, k, hkept, hk, hsame, rfl⟩
  · refine ⟨htype, ?_⟩
    have hempty : (ts.map (convert E d)).isEmpty = false := by simpa using hne
    rw [cat, hmap, hkept, List.map_nil, htype', hempty]
    simp only [Bool.false_eq_true, if_false, Option.some.injEq]
    apply Tensor.ext
    · rfl
    · rfl
    · funext index
      exact (E.cast_zero _ _).symm
  · refine ⟨htype, ?_⟩
    have hkeptType : ∀ u ∈ t :: rest, u.dtype = e := by
      intro u hu
      rw [← hkept] at hu
      exact h u (List.mem_of_mem_filter hu)
    have hsame' : ∀ u ∈ rest.map (convert E d), SameExcept k (convert E d t).shape u.shape := by
      intro u hu
      obtain ⟨v, hv, rfl⟩ := List.mem_map.mp hu
      exact hsame v hv
    have hwrap : wrapDim dim (convert E d t).shape.length = some k := hk
    rw [cat, hmap, hkept, List.map_cons, htype']
    simp only [hwrap, Option.bind_some, if_pos hsame', Option.some.injEq]
    have hsize : catSize k (convert E d t :: rest.map (convert E d)) = catSize k (t :: rest) :=
      catSize_map (t :: rest) fun _ _ ↦ rfl
    apply Tensor.ext
    · rfl
    · show t.shape.set k _ = t.shape.set k _
      rw [hsize]
    · funext index
      have hentry : catEntry E k d (convert E d t :: rest.map (convert E d)) index =
          E.cast e d (catEntry E k e (t :: rest) index) := catEntry_convert hkeptType index
      show (if InBounds index (t.shape.set k _) then _ else _) =
        E.cast _ d (if InBounds index (t.shape.set k _) then _ else _)
      rw [hsize, hentry]
      show _ = E.cast (E.resultType (ts.map (·.dtype))) d _
      rw [htype]
      split
      · rfl
      · exact (E.cast_zero e d).symm

end Convert

section Pad

variable {E : ElementTypes δ ν} {dim : ℤ}

def pad (sizes : List ℕ) (t : Tensor δ ν) : Tensor δ ν where
  dtype := t.dtype
  shape := t.shape.mapIdx fun i n ↦ max n (sizes.getD i 0)
  entry := t.entry
  outside index h := by
    apply t.outside
    rintro ⟨hlen, hlt⟩
    apply h
    refine ⟨by rw [List.length_mapIdx, hlen], ?_⟩
    intro i hi
    have hi' := hlt i (by rwa [List.length_mapIdx] at hi)
    rw [List.getD_eq_getElem _ _ hi, List.getElem_mapIdx]
    rw [List.length_mapIdx] at hi
    rw [List.getD_eq_getElem t.shape _ hi] at hi'
    omega

theorem getD_pad {sizes : List ℕ} {t : Tensor δ ν} {i : ℕ} (hi : i < t.shape.length) :
    (pad sizes t).shape.getD i 0 = max (t.shape.getD i 0) (sizes.getD i 0) := by
  have hlen : i < (pad sizes t).shape.length := by rwa [pad, List.length_mapIdx]
  rw [List.getD_eq_getElem _ _ hlen, List.getD_eq_getElem _ _ hi]
  exact List.getElem_mapIdx

theorem length_pad (sizes : List ℕ) (t : Tensor δ ν) :
    (pad sizes t).shape.length = t.shape.length := List.length_mapIdx

theorem pad_pad {sizes sizes' : List ℕ} {t : Tensor δ ν}
    (h : ∀ i < t.shape.length, sizes.getD i 0 ≤ sizes'.getD i 0) :
    pad sizes' (pad sizes t) = pad sizes' t := by
  apply Tensor.ext
  · rfl
  · apply ext_getD
    · rw [length_pad, length_pad, length_pad]
    · intro i hi
      rw [length_pad, length_pad] at hi
      have hle := h i hi
      rw [getD_pad (by rwa [length_pad]), getD_pad hi, getD_pad hi]
      omega
  · rfl

theorem catEntry_pad {sizes : List ℕ} {k : ℕ} {d : δ} {ts : List (Tensor δ ν)}
    (h : ∀ t ∈ ts, k < t.shape.length) (hk : sizes.getD k 0 = 0) (index : List ℕ) :
    catEntry E k d (ts.map (pad sizes)) index = catEntry E k d ts index := by
  induction ts generalizing index with
  | nil => rfl
  | cons t ts ih =>
    obtain ⟨hhead, hrest⟩ := List.forall_mem_cons.mp h
    have hsize : (pad sizes t).shape.getD k 0 = t.shape.getD k 0 := by
      rw [getD_pad hhead, hk, Nat.max_zero]
    rw [List.map_cons, catEntry, catEntry, hsize, ih hrest]
    rfl

theorem cat_pad {sizes : List ℕ} {ts : List (Tensor δ ν)} {y : Tensor δ ν} {rank k : ℕ}
    (hrank : ∀ t ∈ ts, t.shape.length = rank) (hwrap : wrapDim dim rank = some k)
    (hk : sizes.getD k 0 = 0) (hcat : cat E dim ts = some y) :
    cat E dim (ts.map (pad sizes)) = some (pad sizes y) := by
  have hlt := wrapDim_lt hwrap
  have hsize : ∀ t : Tensor δ ν, t.shape.length = rank →
      (pad sizes t).shape.getD k 0 = t.shape.getD k 0 := by
    intro t ht
    rw [getD_pad (by omega), hk, Nat.max_zero]
  have hzero : ∀ t ∈ ts, (pad sizes t).shape = [0] ↔ t.shape = [0] := by
    intro t ht
    have hlen := length_pad sizes t
    have htk := hsize t (hrank t ht)
    have hcase : ∀ shape : List ℕ, shape.length = rank →
        (shape = [0] ↔ rank = 1 ∧ shape.getD k 0 = 0) := by
      intro shape hshape
      constructor
      · rintro rfl
        obtain rfl : rank = 1 := hshape.symm
        obtain rfl : k = 0 := by omega
        exact ⟨rfl, rfl⟩
      · rintro ⟨rfl, hzero⟩
        obtain rfl : k = 0 := by omega
        apply ext_getD hshape
        intro i hi
        obtain rfl : i = 0 := by omega
        exact hzero
    rw [hcase _ (hlen.trans (hrank t ht)), hcase _ (hrank t ht), htk]
  have htypes : (ts.map (pad sizes)).map (·.dtype) = ts.map (·.dtype) := by
    rw [List.map_map]
    rfl
  obtain ⟨hne, ⟨hkept, rfl⟩ | ⟨t, rest, l, hkept, hl, hsame, rfl⟩⟩ := cat_eq_some hcat
  · have hempty : (ts.map (pad sizes)).isEmpty = false := by simpa using hne
    obtain ⟨t, ht⟩ := List.exists_mem_of_ne_nil ts hne
    have hshape : t.shape = [0] := by
      by_contra hshape
      have hmem : t ∈ kept ts := List.mem_filter.mpr ⟨ht, by simpa using hshape⟩
      rw [hkept] at hmem
      cases hmem
    obtain rfl : rank = 1 := by rw [← hrank t ht, hshape]; rfl
    obtain rfl : k = 0 := by omega
    rw [cat, kept_map ts hzero, hkept, List.map_nil, htypes, hempty]
    simp only [Bool.false_eq_true, if_false, Option.some.injEq]
    apply Tensor.ext
    · rfl
    · have hpad : (pad sizes (emptyTensor (E.resultType (ts.map (·.dtype))) : Tensor δ ν)).shape = [0] := by
        show [max 0 (sizes.getD 0 0)] = [0]
        rw [hk]
        rfl
      exact hpad.symm
    · rfl
  · have hmem : ∀ u ∈ t :: rest, u.shape.length = rank := by
      intro u hu
      rw [← hkept] at hu
      exact hrank u (List.mem_of_mem_filter hu)
    have htrank := hmem t (List.mem_cons_self ..)
    obtain rfl : l = k := by
      rw [htrank, hwrap] at hl
      exact (Option.some.inj hl).symm
    have hsame' : ∀ u ∈ rest.map (pad sizes), SameExcept l (pad sizes t).shape u.shape := by
      intro u hu
      obtain ⟨v, hv, rfl⟩ := List.mem_map.mp hu
      have hlen := (hsame v hv).1
      refine ⟨by rw [length_pad, length_pad, hlen], ?_⟩
      intro i hi hil
      rw [length_pad] at hi
      rw [getD_pad hi, getD_pad (hlen ▸ hi), (hsame v hv).2 i hi hil]
    have hcatSize : catSize l (pad sizes t :: rest.map (pad sizes)) = catSize l (t :: rest) :=
      catSize_map (t :: rest) fun u hu ↦ hsize u (hmem u hu)
    have hentry : ∀ (d : δ) (index : List ℕ),
        catEntry E l d (pad sizes t :: rest.map (pad sizes)) index =
          catEntry E l d (t :: rest) index := fun d index ↦
      catEntry_pad (fun u hu ↦ by rw [hmem u hu]; exact hlt) hk index
    have hwrap' : wrapDim dim (pad sizes t).shape.length = some l := by
      rw [length_pad, htrank, hwrap]
    rw [cat, kept_map ts hzero, hkept, List.map_cons, htypes]
    simp only [hwrap', Option.bind_some, if_pos hsame', Option.some.injEq]
    have hshape : (pad sizes t).shape.set l (catSize l (pad sizes t :: rest.map (pad sizes))) =
        (pad sizes (join E l (E.resultType (ts.map (·.dtype))) t.shape (t :: rest))).shape := by
      have hjoin : (join E l (E.resultType (ts.map (·.dtype))) t.shape (t :: rest)).shape =
          t.shape.set l (catSize l (t :: rest)) := rfl
      rw [hcatSize]
      apply ext_getD
      · rw [List.length_set, length_pad, length_pad, hjoin, List.length_set]
      · intro i hi
        rw [List.length_set, length_pad] at hi
        rw [getD_set, length_pad, getD_pad hi, getD_pad (by rwa [hjoin, List.length_set]), hjoin,
          getD_set]
        split
        · rename_i hil
          rw [hil.1, hk, Nat.max_zero]
        · rfl
    apply Tensor.ext
    · rfl
    · exact hshape
    · funext index
      show (if InBounds index _ then _ else _) = _
      by_cases hin : InBounds index
          ((pad sizes t).shape.set l (catSize l (pad sizes t :: rest.map (pad sizes))))
      · rw [if_pos hin, hentry]
        show _ = if InBounds index _ then _ else _
        by_cases hin' : InBounds index (t.shape.set l (catSize l (t :: rest)))
        · rw [if_pos hin']
        · rw [if_neg hin']
          apply catEntry_outside (by omega) _ hin'
          intro u hu
          rcases List.mem_cons.mp hu with rfl | hu
          · exact SameExcept.refl _ _
          · exact hsame u hu
      · rw [if_neg hin]
        rw [hshape] at hin
        exact (Tensor.outside _ index hin).symm

def maxSize (i : ℕ) (ts : List (Tensor δ ν)) : ℕ := ts.foldr (fun t m ↦ max (t.shape.getD i 0) m) 0

def maxShape (rank : ℕ) (ts : List (Tensor δ ν)) : List ℕ :=
  (List.range rank).map fun i ↦ maxSize i ts

/-- Why tensors are not packed. -/
inductive PackError where
  | differentRanks (ranks : Finset ℕ)
  | invalidDim (rank : ℕ)
  | mismatch
  deriving DecidableEq

def catOrError (E : ElementTypes δ ν) (dim : ℤ) (ts : List (Tensor δ ν)) :
    Except PackError (Tensor δ ν) :=
  match cat E dim ts with
  | some y => .ok y
  | none => .error .mismatch

/-- Tensors of one rank, padded to the largest sizes and concatenated. -/
def padCat (E : ElementTypes δ ν) (rank : ℕ) (dim : ℤ) (ts : List (Tensor δ ν)) :
    Except PackError (Tensor δ ν) :=
  match wrapDim dim rank with
  | none => .error (.invalidDim rank)
  | some k => catOrError E dim (ts.map (pad ((maxShape rank ts).set k 0)))

/-- Concatenation, where `padToMax` first pads every other dimension to its largest size. -/
def pack (E : ElementTypes δ ν) (padToMax : Bool) (dim : ℤ) (ts : List (Tensor δ ν)) :
    Except PackError (Tensor δ ν) :=
  if padToMax then
    if ∀ t ∈ ts, ∀ u ∈ ts, t.shape.length = u.shape.length then
      padCat E ((ts.map (·.shape.length)).headD 0) dim ts
    else .error (.differentRanks (ts.map (·.shape.length)).toFinset)
  else catOrError E dim ts

theorem maxSize_append (i : ℕ) (ts us : List (Tensor δ ν)) :
    maxSize i (ts ++ us) = max (maxSize i ts) (maxSize i us) := by
  induction ts with
  | nil => exact (Nat.zero_max _).symm
  | cons t ts ih =>
    show max (t.shape.getD i 0) (maxSize i (ts ++ us)) = max (max _ (maxSize i ts)) _
    rw [ih, Nat.max_assoc]

theorem le_maxSize {t : Tensor δ ν} {ts : List (Tensor δ ν)} (i : ℕ) (h : t ∈ ts) :
    t.shape.getD i 0 ≤ maxSize i ts := by
  obtain ⟨us, vs, rfl⟩ := List.append_of_mem h
  rw [maxSize_append]
  exact le_max_of_le_right (Nat.le_max_left _ _)

theorem getD_maxShape {rank i : ℕ} (ts : List (Tensor δ ν)) (hi : i < rank) :
    (maxShape rank ts).getD i 0 = maxSize i ts := by
  rw [List.getD_eq_getElem _ _ (by simpa [maxShape] using hi)]
  simp [maxShape]

/-- The sizes that tensors are padded to before they are packed in dimension `k`. -/
theorem getD_padding {rank i k : ℕ} (ts : List (Tensor δ ν)) (hi : i < rank) :
    ((maxShape rank ts).set k 0).getD i 0 = if i = k then 0 else maxSize i ts := by
  have hlen : (maxShape rank ts).length = rank := by simp [maxShape]
  rw [getD_set, hlen, getD_maxShape ts hi]
  by_cases hik : i = k
  · rw [if_pos ⟨hik, hik ▸ hi⟩, if_pos hik]
  · rw [if_neg fun h ↦ hik h.1, if_neg hik]

theorem catOrError_eq_ok {ts : List (Tensor δ ν)} {y : Tensor δ ν} :
    catOrError E dim ts = .ok y ↔ cat E dim ts = some y := by
  rw [catOrError]
  cases cat E dim ts with
  | none => exact ⟨fun h ↦ (nomatch h), fun h ↦ (nomatch h)⟩
  | some z =>
    exact ⟨fun h ↦ congrArg some (Except.ok.inj h), fun h ↦ congrArg _ (Option.some.inj h)⟩

theorem padCat_eq {rank k : ℕ} (ts : List (Tensor δ ν)) (hwrap : wrapDim dim rank = some k) :
    padCat E rank dim ts = catOrError E dim (ts.map (pad ((maxShape rank ts).set k 0))) := by
  rw [padCat, hwrap]

theorem pack_padToMax {ts : List (Tensor δ ν)} {rank : ℕ} (hne : ts ≠ [])
    (hrank : ∀ t ∈ ts, t.shape.length = rank) : pack E true dim ts = padCat E rank dim ts := by
  have hall : ∀ t ∈ ts, ∀ u ∈ ts, t.shape.length = u.shape.length :=
    fun t ht u hu ↦ (hrank t ht).trans (hrank u hu).symm
  have hhead : (ts.map (·.shape.length)).headD 0 = rank := by
    cases ts with
    | nil => exact absurd rfl hne
    | cons t ts => exact hrank t (List.mem_cons_self ..)
  rw [pack, if_pos rfl, if_pos hall, hhead]

theorem pack_padToMax_eq_ok {ts : List (Tensor δ ν)} {y : Tensor δ ν} (hne : ts ≠ [])
    (h : pack E true dim ts = .ok y) : ∃ rank k, (∀ t ∈ ts, t.shape.length = rank) ∧
      wrapDim dim rank = some k ∧ cat E dim (ts.map (pad ((maxShape rank ts).set k 0))) = some y := by
  obtain ⟨t, ht⟩ := List.exists_mem_of_ne_nil ts hne
  by_cases hall : ∀ t ∈ ts, ∀ u ∈ ts, t.shape.length = u.shape.length
  · have hrank : ∀ u ∈ ts, u.shape.length = t.shape.length := fun u hu ↦ hall u hu t ht
    rw [pack_padToMax hne hrank] at h
    cases hwrap : wrapDim dim t.shape.length with
    | none =>
      rw [padCat, hwrap] at h
      cases h
    | some k =>
      rw [padCat_eq ts hwrap] at h
      exact ⟨t.shape.length, k, hrank, hwrap, catOrError_eq_ok.mp h⟩
  · rw [pack, if_pos rfl, if_neg hall] at h
    cases h

theorem cat_padded_shape {ts : List (Tensor δ ν)} {y : Tensor δ ν} {rank k : ℕ}
    (hrank : ∀ t ∈ ts, t.shape.length = rank) (hwrap : wrapDim dim rank = some k)
    (hcat : cat E dim (ts.map (pad ((maxShape rank ts).set k 0))) = some y) :
    y.shape.length = rank ∧ ∀ i < rank, i ≠ k → y.shape.getD i 0 = maxSize i ts := by
  have hlt := wrapDim_lt hwrap
  have hpadded : ∀ u ∈ ts.map (pad ((maxShape rank ts).set k 0)), u.shape.length = rank ∧
      ∀ i < rank, i ≠ k → u.shape.getD i 0 = maxSize i ts := by
    intro u hu
    obtain ⟨t, ht, rfl⟩ := List.mem_map.mp hu
    have htrank := hrank t ht
    refine ⟨by rw [length_pad, htrank], ?_⟩
    intro i hi hik
    rw [getD_pad (by omega), getD_padding ts hi, if_neg hik]
    exact Nat.max_eq_right (le_maxSize i ht)
  obtain ⟨hne, ⟨hkept, rfl⟩ | ⟨t, rest, l, hkept, hl, hsame, rfl⟩⟩ := cat_eq_some hcat
  · obtain ⟨u, hu⟩ := List.exists_mem_of_ne_nil _ hne
    have hshape : u.shape = [0] := by
      by_contra hshape
      have hmem : u ∈ kept (ts.map (pad ((maxShape rank ts).set k 0))) :=
        List.mem_filter.mpr ⟨hu, by simpa using hshape⟩
      rw [hkept] at hmem
      cases hmem
    obtain rfl : rank = 1 := by rw [← (hpadded u hu).1, hshape]; rfl
    refine ⟨rfl, ?_⟩
    intro i hi hik
    omega
  · have hmem : t ∈ ts.map (pad ((maxShape rank ts).set k 0)) := by
      apply List.mem_of_mem_filter (p := fun u ↦ decide (u.shape ≠ [0]))
      show t ∈ kept _
      rw [hkept]
      exact List.mem_cons_self ..
    obtain ⟨htrank, htsize⟩ := hpadded t hmem
    obtain rfl : l = k := by
      rw [htrank, hwrap] at hl
      exact (Option.some.inj hl).symm
    have hshape : ∀ d, (join E l d t.shape (t :: rest)).shape =
        t.shape.set l (catSize l (t :: rest)) := fun _ ↦ rfl
    rw [hshape]
    refine ⟨by rw [List.length_set, htrank], ?_⟩
    intro i hi hil
    rw [getD_set, if_neg fun h ↦ hil h.1, htsize i hi hil]

/-- `y` stands for the tensors of `g`: they packed, or the one tensor there is. -/
def PacksTo (E : ElementTypes δ ν) (padToMax : Bool) (dim : ℤ) (y : Tensor δ ν)
    (g : List (Tensor δ ν)) : Prop := g = [y] ∨ g ≠ [] ∧ Uniform g ∧ pack E padToMax dim g = .ok y

theorem PacksTo.ne_nil {padToMax : Bool} {y : Tensor δ ν} {g : List (Tensor δ ν)}
    (h : PacksTo E padToMax dim y g) : g ≠ [] := by
  rcases h with rfl | ⟨hne, -⟩
  · exact List.cons_ne_nil _ _
  · exact hne

theorem uniform_map {f : Tensor δ ν → Tensor δ ν} {g : List (Tensor δ ν)}
    (hf : ∀ t, (f t).dtype = t.dtype) (h : Uniform g) : Uniform (g.map f) := by
  intro t ht u hu
  obtain ⟨t', ht', rfl⟩ := List.mem_map.mp ht
  obtain ⟨u', hu', rfl⟩ := List.mem_map.mp hu
  rw [hf, hf, h t' ht' u' hu']

theorem PacksTo.dtype {padToMax : Bool} {y : Tensor δ ν} {g : List (Tensor δ ν)}
    (h : PacksTo E padToMax dim y g) : ∀ t ∈ g, t.dtype = y.dtype := by
  rcases h with rfl | ⟨hne, huniform, hpack⟩
  · intro t ht
    rw [List.mem_singleton.mp ht]
  · cases padToMax with
    | false => exact StandsFor.dtype (.inr ⟨huniform, catOrError_eq_ok.mp hpack⟩)
    | true =>
      obtain ⟨rank, k, -, -, hcat⟩ := pack_padToMax_eq_ok hne hpack
      have hstands : StandsFor E dim y (g.map (pad ((maxShape rank g).set k 0))) :=
        .inr ⟨uniform_map (fun _ ↦ rfl) huniform, hcat⟩
      intro t ht
      exact hstands.dtype (pad ((maxShape rank g).set k 0) t) (List.mem_map_of_mem ht)

theorem PacksTo.sizes {y : Tensor δ ν} {g : List (Tensor δ ν)} (h : PacksTo E true dim y g) :
    (∀ t ∈ g, t.shape.length = y.shape.length) ∧ ∀ k, wrapDim dim y.shape.length = some k →
      ∀ i < y.shape.length, i ≠ k → maxSize i g = y.shape.getD i 0 := by
  rcases h with rfl | ⟨hne, -, hpack⟩
  · refine ⟨fun t ht ↦ by rw [List.mem_singleton.mp ht], ?_⟩
    intro k _ i _ _
    exact Nat.max_zero _
  · obtain ⟨rank, k, hrank, hwrap, hcat⟩ := pack_padToMax_eq_ok hne hpack
    obtain ⟨hy, hsize⟩ := cat_padded_shape hrank hwrap hcat
    rw [hy]
    refine ⟨hrank, ?_⟩
    intro l hl i hi hil
    obtain rfl : k = l := Option.some.inj (hwrap.symm.trans hl)
    exact (hsize i hi hil).symm

theorem maxSize_flatten {i : ℕ} {ys : List (Tensor δ ν)} {gs : List (List (Tensor δ ν))}
    (h : List.Forall₂ (fun y g ↦ maxSize i g = y.shape.getD i 0) ys gs) :
    maxSize i gs.flatten = maxSize i ys := by
  induction h with
  | nil => rfl
  | cons hy _ ih =>
    rw [List.flatten_cons, maxSize_append, hy, ih]
    rfl

/-- A packed tensor padded further stands for its tensors padded as far. -/
theorem PacksTo.pad {sizes : List ℕ} {y : Tensor δ ν} {g : List (Tensor δ ν)} {k : ℕ}
    (h : PacksTo E true dim y g) (hwrap : wrapDim dim y.shape.length = some k)
    (hzero : sizes.getD k 0 = 0)
    (hle : ∀ i < y.shape.length, i ≠ k → y.shape.getD i 0 ≤ sizes.getD i 0) :
    StandsFor E dim (pad sizes y) (g.map (pad sizes)) := by
  obtain ⟨hrank, hmax⟩ := h.sizes
  rcases h with rfl | ⟨hne, huniform, hpack⟩
  · exact .inl rfl
  · obtain ⟨rank, l, hrank', hl, hcat⟩ := pack_padToMax_eq_ok hne hpack
    obtain ⟨t, ht⟩ := List.exists_mem_of_ne_nil g hne
    obtain rfl : rank = y.shape.length := by rw [← hrank' t ht, hrank t ht]
    obtain rfl : k = l := Option.some.inj (hwrap.symm.trans hl)
    refine .inr ⟨uniform_map (fun _ ↦ rfl) huniform, ?_⟩
    have hpadded : (g.map (Tensors.pad ((maxShape y.shape.length g).set k 0))).map
        (Tensors.pad sizes) = g.map (Tensors.pad sizes) := by
      rw [List.map_map]
      apply List.map_congr_left
      intro u hu
      apply pad_pad
      intro i hi
      rw [hrank u hu] at hi
      rw [getD_padding g hi]
      split
      · exact Nat.zero_le _
      · rename_i hik
        rw [hmax k hwrap i hi hik]
        exact hle i hi hik
    rw [← hpadded]
    refine cat_pad ?_ hwrap hzero hcat
    intro u hu
    obtain ⟨v, hv, rfl⟩ := List.mem_map.mp hu
    rw [length_pad, hrank v hv]

/-- Packing what stands for some tensors is packing the tensors, where they are padded. -/
theorem pack_padToMax_flatten {ys : List (Tensor δ ν)} {gs : List (List (Tensor δ ν))}
    (h : List.Forall₂ (PacksTo E true dim) ys gs) :
    pack E true dim ys = pack E true dim gs.flatten := by
  have hranks : ∀ n, (∃ y ∈ ys, y.shape.length = n) ↔ ∃ t ∈ gs.flatten, t.shape.length = n := by
    intro n
    constructor
    · rintro ⟨y, hy, rfl⟩
      obtain ⟨g, hg, hpacks⟩ := exists_of_mem_left h hy
      obtain ⟨t, ht⟩ := List.exists_mem_of_ne_nil g hpacks.ne_nil
      exact ⟨t, List.mem_flatten.mpr ⟨g, hg, ht⟩, hpacks.sizes.1 t ht⟩
    · rintro ⟨t, ht, rfl⟩
      obtain ⟨g, hg, ht⟩ := List.mem_flatten.mp ht
      obtain ⟨y, hy, hpacks⟩ := exists_of_mem_right h hg
      exact ⟨y, hy, (hpacks.sizes.1 t ht).symm⟩
  have hsame : (∀ t ∈ ys, ∀ u ∈ ys, t.shape.length = u.shape.length) ↔
      ∀ t ∈ gs.flatten, ∀ u ∈ gs.flatten, t.shape.length = u.shape.length := by
    constructor
    · intro hall t ht u hu
      obtain ⟨y, hy, hyt⟩ := (hranks _).mpr ⟨t, ht, rfl⟩
      obtain ⟨z, hz, hzu⟩ := (hranks _).mpr ⟨u, hu, rfl⟩
      rw [← hyt, ← hzu, hall y hy z hz]
    · intro hall y hy z hz
      obtain ⟨t, ht, hty⟩ := (hranks _).mp ⟨y, hy, rfl⟩
      obtain ⟨u, hu, huz⟩ := (hranks _).mp ⟨z, hz, rfl⟩
      rw [← hty, ← huz, hall t ht u hu]
  by_cases hall : ∀ t ∈ ys, ∀ u ∈ ys, t.shape.length = u.shape.length
  · rcases List.eq_nil_or_concat' ys with rfl | ⟨_, _, hys⟩
    · cases h
      rfl
    · have hne : ys ≠ [] := by simp [hys]
      obtain ⟨y, hy⟩ := List.exists_mem_of_ne_nil ys hne
      obtain ⟨g, hg, hpacks⟩ := exists_of_mem_left h hy
      obtain ⟨t, ht⟩ := List.exists_mem_of_ne_nil g hpacks.ne_nil
      have hmem : t ∈ gs.flatten := List.mem_flatten.mpr ⟨g, hg, ht⟩
      have hrank : ∀ z ∈ ys, z.shape.length = y.shape.length := fun z hz ↦ hall z hz y hy
      have hrank' : ∀ u ∈ gs.flatten, u.shape.length = y.shape.length := fun u hu ↦
        (hsame.mp hall u hu t hmem).trans (hpacks.sizes.1 t ht)
      rw [pack_padToMax hne hrank, pack_padToMax (List.ne_nil_of_mem hmem) hrank']
      cases hwrap : wrapDim dim y.shape.length with
      | none => rw [padCat, padCat, hwrap]
      | some k =>
        have hmax : ∀ i < y.shape.length, i ≠ k → maxSize i gs.flatten = maxSize i ys := by
          intro i hi hik
          apply maxSize_flatten
          rw [List.forall₂_iff_zip] at h ⊢
          refine ⟨h.1, ?_⟩
          intro z g' hz
          have hrz := hrank z (List.of_mem_zip hz).1
          exact (h.2 hz).sizes.2 k (hrz ▸ hwrap) i (hrz ▸ hi) hik
        have hsizes : (maxShape y.shape.length gs.flatten).set k 0 =
            (maxShape y.shape.length ys).set k 0 := by
          apply ext_getD
          · simp [maxShape]
          · intro i hi
            rw [List.length_set, maxShape, List.length_map, List.length_range] at hi
            rw [getD_padding _ hi, getD_padding _ hi]
            split
            · rfl
            · exact hmax i hi ‹_›
        have hstands : List.Forall₂ (StandsFor E dim)
            (ys.map (pad ((maxShape y.shape.length ys).set k 0)))
            (gs.map (List.map (pad ((maxShape y.shape.length ys).set k 0)))) := by
          rw [List.forall₂_map_left_iff, List.forall₂_map_right_iff]
          rw [List.forall₂_iff_zip] at h ⊢
          refine ⟨h.1, ?_⟩
          intro z g' hz
          have hzmem := (List.of_mem_zip hz).1
          have hrz := hrank z hzmem
          refine (h.2 hz).pad (hrz ▸ hwrap) ?_ ?_
          · rw [getD_padding _ (wrapDim_lt hwrap), if_pos rfl]
          · intro i hi hik
            rw [getD_padding _ (hrz ▸ hi), if_neg hik]
            exact le_maxSize i hzmem
        rw [padCat_eq _ hwrap, padCat_eq _ hwrap, hsizes, catOrError, catOrError,
          cat_flatten hstands, List.map_flatten]
  · rw [pack, pack, if_pos rfl, if_pos rfl, if_neg hall, if_neg (mt hsame.mpr hall)]
    congr 2
    ext n
    rw [List.mem_toFinset, List.mem_toFinset, List.mem_map, List.mem_map]
    exact hranks n

theorem pack_flatten {padToMax : Bool} {ys : List (Tensor δ ν)} {gs : List (List (Tensor δ ν))}
    (h : List.Forall₂ (PacksTo E padToMax dim) ys gs) :
    pack E padToMax dim ys = pack E padToMax dim gs.flatten := by
  cases padToMax with
  | true => exact pack_padToMax_flatten h
  | false =>
    have hstands : List.Forall₂ (StandsFor E dim) ys gs := by
      refine h.imp ?_
      rintro y g (rfl | ⟨-, huniform, hpack⟩)
      · exact .inl rfl
      · exact .inr ⟨huniform, catOrError_eq_ok.mp hpack⟩
    show catOrError E dim ys = catOrError E dim gs.flatten
    rw [catOrError, catOrError, cat_flatten hstands]

theorem maxShape_map {f : Tensor δ ν → Tensor δ ν} (rank : ℕ) (ts : List (Tensor δ ν))
    (hf : ∀ t, (f t).shape = t.shape) : maxShape rank (ts.map f) = maxShape rank ts := by
  rw [maxShape, maxShape]
  apply List.map_congr_left
  intro i _
  rw [maxSize, maxSize, List.foldr_map]
  simp only [hf]

theorem pack_convert {padToMax : Bool} {ts : List (Tensor δ ν)} {y : Tensor δ ν} {d e : δ}
    (hne : ts ≠ []) (h : ∀ t ∈ ts, t.dtype = e) (hpack : pack E padToMax dim ts = .ok y) :
    pack E padToMax dim (ts.map (convert E d)) = .ok (convert E d y) := by
  cases padToMax with
  | false => exact catOrError_eq_ok.mpr (cat_convert h (catOrError_eq_ok.mp hpack)).2
  | true =>
    obtain ⟨rank, k, hrank, hwrap, hcat⟩ := pack_padToMax_eq_ok hne hpack
    have hrank' : ∀ t ∈ ts.map (convert E d), t.shape.length = rank := by
      intro t ht
      obtain ⟨u, hu, rfl⟩ := List.mem_map.mp ht
      exact hrank u hu
    have hpadded : (ts.map (convert E d)).map (pad ((maxShape rank ts).set k 0)) =
        (ts.map (pad ((maxShape rank ts).set k 0))).map (convert E d) := by
      rw [List.map_map, List.map_map]
      rfl
    have hmax : maxShape rank (ts.map (convert E d)) = maxShape rank ts :=
      maxShape_map rank ts fun _ ↦ rfl
    rw [pack_padToMax (by simpa using hne) hrank', padCat_eq _ hwrap, hmax, hpadded]
    apply catOrError_eq_ok.mpr
    refine (cat_convert (e := e) ?_ hcat).2
    intro t ht
    obtain ⟨u, hu, rfl⟩ := List.mem_map.mp ht
    exact h u hu

theorem PacksTo.convert {padToMax : Bool} {y : Tensor δ ν} {g : List (Tensor δ ν)} (d : δ)
    (h : PacksTo E padToMax dim y g) :
    PacksTo E padToMax dim (convert E d y) (g.map (convert E d)) := by
  have hdtype := h.dtype
  rcases h with rfl | ⟨hne, -, hpack⟩
  · exact .inl rfl
  · refine .inr ⟨by simpa using hne, ?_, pack_convert hne hdtype hpack⟩
    intro t ht u hu
    obtain ⟨t', -, rfl⟩ := List.mem_map.mp ht
    obtain ⟨u', -, rfl⟩ := List.mem_map.mp hu
    rfl

end Pad

end NemoRL.Foundations.Tensors
