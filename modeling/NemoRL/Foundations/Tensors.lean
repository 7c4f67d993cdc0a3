import Mathlib

namespace NemoRL.Foundations.Tensors

/-- What conversion and promotion do to element types `δ` and values `ν`. -/
structure ElementTypes (δ ν : Type*) [Zero ν] where
  isFloatingPoint : δ → Bool
  /-- The value of one type as a value of another. -/
  cast : δ → δ → ν → ν
  /-- The type that tensors of several types are concatenated in. -/
  resultType : List δ → δ
  cast_zero : ∀ d e, cast d e 0 = 0
  cast_self : ∀ d v, cast d d v = v
  resultType_uniform : ∀ d l, d ∈ l → (∀ e ∈ l, e = d) → resultType l = d
  resultType_congr : ∀ l l', (∀ d, d ∈ l ↔ d ∈ l') → resultType l = resultType l'

def InBounds (index shape : List ℕ) : Prop :=
  index.length = shape.length ∧ ∀ i < shape.length, index.getD i 0 < shape.getD i 0

/-- A tensor is zero outside of its shape. -/
@[ext]
structure Tensor (δ ν : Type*) [Zero ν] where
  dtype : δ
  shape : List ℕ
  entry : List ℕ → ν
  outside : ∀ index, ¬ InBounds index shape → entry index = 0

variable {δ ν : Type*} [Zero ν]

section Shapes

def SameExcept (k : ℕ) (shape shape' : List ℕ) : Prop :=
  shape.length = shape'.length ∧ ∀ i < shape.length, i ≠ k → shape.getD i 0 = shape'.getD i 0

instance (k : ℕ) (shape shape' : List ℕ) : Decidable (SameExcept k shape shape') :=
  inferInstanceAs (Decidable (_ ∧ _))

instance (index shape : List ℕ) : Decidable (InBounds index shape) :=
  inferInstanceAs (Decidable (_ ∧ _))

variable {k : ℕ} {shape shape' shape'' index : List ℕ}

theorem SameExcept.refl (k : ℕ) (shape : List ℕ) : SameExcept k shape shape :=
  ⟨rfl, fun _ _ _ ↦ rfl⟩

theorem SameExcept.symm (h : SameExcept k shape shape') : SameExcept k shape' shape :=
  ⟨h.1.symm, fun i hi hk ↦ (h.2 i (h.1 ▸ hi) hk).symm⟩

theorem SameExcept.trans (h : SameExcept k shape shape') (h' : SameExcept k shape' shape'') :
    SameExcept k shape shape'' :=
  ⟨h.1.trans h'.1, fun i hi hk ↦ (h.2 i hi hk).trans (h'.2 i (h.1 ▸ hi) hk)⟩

theorem getD_set (shape : List ℕ) (k i n : ℕ) :
    (shape.set k n).getD i 0 = if i = k ∧ k < shape.length then n else shape.getD i 0 := by
  rw [List.getD_eq_getElem?_getD, List.getElem?_set, List.getD_eq_getElem?_getD]
  rcases eq_or_ne k i with rfl | hne
  · rcases Nat.lt_or_ge k shape.length with hk | hk
    · simp [hk]
    · simp [Nat.not_lt.mpr hk]
  · simp [hne, hne.symm]

theorem ext_getD (hlen : shape.length = shape'.length)
    (h : ∀ i < shape.length, shape.getD i 0 = shape'.getD i 0) : shape = shape' := by
  apply List.ext_getElem hlen
  intro i hi hi'
  have hget := h i hi
  rwa [List.getD_eq_getElem _ _ hi, List.getD_eq_getElem _ _ hi'] at hget

theorem SameExcept.set_eq (h : SameExcept k shape shape') (n : ℕ) :
    shape.set k n = shape'.set k n := by
  apply ext_getD
  · rw [List.length_set, List.length_set, h.1]
  · intro i hi
    rw [List.length_set] at hi
    rw [getD_set, getD_set, h.1]
    split
    · rfl
    · rename_i hne
      rcases eq_or_ne i k with rfl | hik
      · rw [h.1] at hi
        exact absurd ⟨rfl, hi⟩ hne
      · exact h.2 i hi hik

theorem sameExcept_set (k : ℕ) (shape : List ℕ) (n : ℕ) : SameExcept k shape (shape.set k n) := by
  refine ⟨(List.length_set ..).symm, ?_⟩
  intro i _ hik
  rw [getD_set, if_neg (by simp [hik])]

theorem getD_modify_sub (index : List ℕ) (k i n : ℕ) :
    (index.modify k (· - n)).getD i 0 =
      if i = k then index.getD i 0 - n else index.getD i 0 := by
  rw [List.getD_eq_getElem?_getD, List.getElem?_modify, List.getD_eq_getElem?_getD]
  rcases eq_or_ne k i with rfl | hne
  · cases index[k]? <;> simp
  · simp [hne, hne.symm]

theorem modify_modify_sub (index : List ℕ) (k a b : ℕ) :
    (index.modify k (· - a)).modify k (· - b) = index.modify k (· - (a + b)) := by
  rw [List.modify_modify_eq]
  congr 1
  funext n
  exact Nat.sub_sub n a b

theorem inBounds_modify {a n : ℕ} (hk : k < shape.length) (ha : a ≤ index.getD k 0)
    (h : InBounds (index.modify k (· - a)) (shape.set k n)) : InBounds index (shape.set k (a + n)) := by
  obtain ⟨hlen, hlt⟩ := h
  rw [List.length_modify, List.length_set] at hlen
  refine ⟨by rw [List.length_set, hlen], ?_⟩
  intro i hi
  rw [List.length_set] at hi
  have hi' := hlt i (by rwa [List.length_set])
  rw [getD_modify_sub, getD_set] at hi'
  rw [getD_set]
  by_cases hik : i = k
  · rw [if_pos hik, if_pos ⟨hik, hk⟩] at hi'
    rw [if_pos ⟨hik, hk⟩]
    rw [← hik] at ha
    omega
  · rw [if_neg hik, if_neg fun h ↦ hik h.1] at hi'
    rw [if_neg fun h ↦ hik h.1]
    exact hi'

theorem InBounds.of_sameExcept {n : ℕ} (hk : k < shape.length) (h : SameExcept k shape shape')
    (hle : shape'.getD k 0 ≤ n) (hin : InBounds index shape') : InBounds index (shape.set k n) := by
  obtain ⟨hlen, hlt⟩ := hin
  refine ⟨by rw [List.length_set, hlen, h.1], ?_⟩
  intro i hi
  rw [List.length_set] at hi
  have hi' := hlt i (h.1 ▸ hi)
  rw [getD_set]
  split
  · rename_i hik
    obtain ⟨rfl, -⟩ := hik
    omega
  · rename_i hik
    rw [h.2 i hi fun heq ↦ hik ⟨heq, hk⟩]
    exact hi'

end Shapes

section Cat

variable (E : ElementTypes δ ν)

/-- A dimension counted from the end when it is negative. -/
def wrapDim (dim : ℤ) (rank : ℕ) : Option ℕ :=
  let k := if dim ≥ 0 then dim else rank + dim
  if 0 ≤ k ∧ k < rank then some k.toNat else none

/-- How long the tensors are together in dimension `k`. -/
def catSize (k : ℕ) (ts : List (Tensor δ ν)) : ℕ := (ts.map (·.shape.getD k 0)).sum

/-- An entry of the tensors end to end in dimension `k`, as a value of type `d`. -/
def catEntry (k : ℕ) (d : δ) : List (Tensor δ ν) → List ℕ → ν
  | [], _ => 0
  | t :: ts, index =>
    if index.getD k 0 < t.shape.getD k 0 then E.cast t.dtype d (t.entry index)
    else catEntry k d ts (index.modify k (· - t.shape.getD k 0))

def join (k : ℕ) (d : δ) (shape : List ℕ) (ts : List (Tensor δ ν)) : Tensor δ ν where
  dtype := d
  shape := shape.set k (catSize k ts)
  entry index := if InBounds index (shape.set k (catSize k ts)) then catEntry E k d ts index else 0
  outside _ h := if_neg h

def kept (ts : List (Tensor δ ν)) : List (Tensor δ ν) := ts.filter (·.shape ≠ [0])

def emptyTensor (d : δ) : Tensor δ ν := ⟨d, [0], fun _ ↦ 0, fun _ _ ↦ rfl⟩

/-- Concatenation in dimension `dim`; nothing where the shapes do not match. -/
def cat (dim : ℤ) (ts : List (Tensor δ ν)) : Option (Tensor δ ν) :=
  let d := E.resultType (ts.map (·.dtype))
  match kept ts with
  | [] => if ts.isEmpty then none else some (emptyTensor d)
  | t :: rest => (wrapDim dim t.shape.length).bind fun k ↦
    if ∀ u ∈ rest, SameExcept k t.shape u.shape then some (join E k d t.shape (t :: rest))
    else none

variable {E} {k : ℕ} {d : δ} {ts us : List (Tensor δ ν)}

theorem wrapDim_lt {dim : ℤ} {rank : ℕ} (h : wrapDim dim rank = some k) : k < rank := by
  rw [wrapDim] at h
  generalize (if dim ≥ 0 then dim else (rank : ℤ) + dim) = n at h
  split at h
  · obtain rfl := Option.some.inj h
    omega
  · cases h

theorem catSize_append (k : ℕ) (ts us : List (Tensor δ ν)) :
    catSize k (ts ++ us) = catSize k ts + catSize k us := by
  rw [catSize, List.map_append, List.sum_append]
  rfl

theorem catEntry_append (index : List ℕ) :
    catEntry E k d (ts ++ us) index = if index.getD k 0 < catSize k ts then
      catEntry E k d ts index else catEntry E k d us (index.modify k (· - catSize k ts)) := by
  induction ts generalizing index with
  | nil =>
    have hzero : index.modify k (· - catSize k ([] : List (Tensor δ ν))) = index :=
      List.modify_id k index
    have hsize : catSize k ([] : List (Tensor δ ν)) = 0 := rfl
    rw [List.nil_append, hzero, hsize, if_neg (Nat.not_lt_zero _)]
  | cons t ts ih =>
    have hsize : catSize k (t :: ts) = t.shape.getD k 0 + catSize k ts := by
      rw [catSize, List.map_cons, List.sum_cons]
      rfl
    rw [List.cons_append, catEntry, catEntry, hsize, ih, getD_modify_sub, if_pos rfl,
      modify_modify_sub]
    by_cases hlt : index.getD k 0 < t.shape.getD k 0
    · rw [if_pos hlt, if_pos (by omega), if_pos hlt]
    · rw [if_neg hlt, if_neg hlt]
      by_cases hlt' : index.getD k 0 < t.shape.getD k 0 + catSize k ts
      · rw [if_pos (by omega), if_pos hlt']
      · rw [if_neg (by omega), if_neg hlt']

theorem catEntry_cast {e : δ} (h : ∀ t ∈ ts, t.dtype = e) (index : List ℕ) :
    catEntry E k d ts index = E.cast e d (catEntry E k e ts index) := by
  induction ts generalizing index with
  | nil => exact (E.cast_zero e d).symm
  | cons t ts ih =>
    obtain ⟨hhead, hrest⟩ := List.forall_mem_cons.mp h
    rw [catEntry, catEntry, ih hrest, hhead]
    split
    · rw [E.cast_self]
    · rfl

theorem catEntry_outside {shape : List ℕ} (hk : k < shape.length)
    (h : ∀ t ∈ ts, SameExcept k shape t.shape) {index : List ℕ}
    (hout : ¬ InBounds index (shape.set k (catSize k ts))) : catEntry E k d ts index = 0 := by
  induction ts generalizing index with
  | nil => rfl
  | cons t ts ih =>
    obtain ⟨hhead, hrest⟩ := List.forall_mem_cons.mp h
    have hsize : catSize k (t :: ts) = t.shape.getD k 0 + catSize k ts := by
      rw [catSize, List.map_cons, List.sum_cons]
      rfl
    rw [hsize] at hout
    rw [catEntry]
    split
    · rw [t.outside index fun hin ↦ hout (hin.of_sameExcept hk hhead (Nat.le_add_right _ _)),
        E.cast_zero]
    · rename_i hge
      apply ih hrest
      intro hin
      exact hout (inBounds_modify hk (not_lt.mp hge) hin)

end Cat

section Pairs

variable {α β : Type*} {R : α → β → Prop} {as : List α} {bs : List β}

theorem exists_of_mem_left (h : List.Forall₂ R as bs) {a : α} (ha : a ∈ as) :
    ∃ b ∈ bs, R a b := by
  induction h with
  | nil => cases ha
  | @cons a' b' as bs hab _ ih =>
    rcases List.mem_cons.mp ha with rfl | ha
    · exact ⟨b', List.mem_cons_self .., hab⟩
    · obtain ⟨b, hb, hR⟩ := ih ha
      exact ⟨b, List.mem_cons_of_mem _ hb, hR⟩

theorem exists_of_mem_right (h : List.Forall₂ R as bs) {b : β} (hb : b ∈ bs) :
    ∃ a ∈ as, R a b := exists_of_mem_left h.flip hb

end Pairs

section Parts

variable {E : ElementTypes δ ν} {dim : ℤ}

def Uniform (ts : List (Tensor δ ν)) : Prop := ∀ t ∈ ts, ∀ u ∈ ts, t.dtype = u.dtype

/-- `y` stands for the tensors of `g`: their concatenation, or the one tensor there is. -/
def StandsFor (E : ElementTypes δ ν) (dim : ℤ) (y : Tensor δ ν) (g : List (Tensor δ ν)) : Prop :=
  g = [y] ∨ Uniform g ∧ cat E dim g = some y

theorem cat_eq_some {ts : List (Tensor δ ν)} {y : Tensor δ ν} (h : cat E dim ts = some y) :
    ts ≠ [] ∧ (kept ts = [] ∧ y = emptyTensor (E.resultType (ts.map (·.dtype))) ∨
      ∃ t rest k, kept ts = t :: rest ∧ wrapDim dim t.shape.length = some k ∧
        (∀ u ∈ rest, SameExcept k t.shape u.shape) ∧
        y = join E k (E.resultType (ts.map (·.dtype))) t.shape (t :: rest)) := by
  rw [cat] at h
  split at h
  · rename_i hkept
    split at h
    · cases h
    · rename_i hne
      obtain rfl := Option.some.inj h
      exact ⟨by simpa using hne, .inl ⟨hkept, rfl⟩⟩
  · rename_i t rest hkept
    obtain ⟨k, hk, h⟩ := Option.bind_eq_some_iff.mp h
    split at h
    · obtain rfl := Option.some.inj h
      refine ⟨?_, .inr ⟨t, rest, k, hkept, hk, ‹_›, rfl⟩⟩
      rintro rfl
      cases hkept
    · cases h

theorem StandsFor.ne_nil {y : Tensor δ ν} {g : List (Tensor δ ν)} (h : StandsFor E dim y g) :
    g ≠ [] := by
  rcases h with rfl | ⟨-, hcat⟩
  · exact List.cons_ne_nil _ _
  · exact (cat_eq_some hcat).1

theorem StandsFor.dtype {y : Tensor δ ν} {g : List (Tensor δ ν)} (h : StandsFor E dim y g) :
    ∀ t ∈ g, t.dtype = y.dtype := by
  rcases h with rfl | ⟨huniform, hcat⟩
  · intro t ht
    rw [List.mem_singleton.mp ht]
  · intro t ht
    have hresult : E.resultType (g.map (·.dtype)) = t.dtype := by
      apply E.resultType_uniform
      · exact List.mem_map_of_mem ht
      · intro e he
        obtain ⟨u, hu, rfl⟩ := List.mem_map.mp he
        exact huniform u hu t ht
    obtain ⟨-, ⟨-, rfl⟩ | ⟨u, rest, k, -, -, -, rfl⟩⟩ := cat_eq_some hcat
    · exact hresult.symm
    · exact hresult.symm

/-- A part that counts, and the tensors it stands for. -/
structure Counts (E : ElementTypes δ ν) (dim : ℤ) (y : Tensor δ ν) (g : List (Tensor δ ν)) :
    Prop where
  shape_ne : y.shape ≠ [0]
  kept_ne : kept g ≠ []
  rank : ∀ t ∈ kept g, t.shape.length = y.shape.length
  same : ∀ k, wrapDim dim y.shape.length = some k → ∀ t ∈ kept g, SameExcept k y.shape t.shape
  size : ∀ k, wrapDim dim y.shape.length = some k → catSize k (kept g) = y.shape.getD k 0
  entry : ∀ k d index, wrapDim dim y.shape.length = some k → index.getD k 0 < y.shape.getD k 0 →
    catEntry E k d (kept g) index = E.cast y.dtype d (y.entry index)

theorem StandsFor.counts {y : Tensor δ ν} {g : List (Tensor δ ν)} (h : StandsFor E dim y g) :
    y.shape = [0] ∧ kept g = [] ∨ Counts E dim y g := by
  have hdtype := h.dtype
  rcases h with rfl | ⟨-, hcat⟩
  · by_cases hshape : y.shape = [0]
    · exact .inl ⟨hshape, by simp [kept, hshape]⟩
    · have hkept : kept [y] = [y] := by simp [kept, hshape]
      refine .inr ⟨hshape, by simp [hkept], ?_, ?_, ?_, ?_⟩
      · intro t ht
        rw [hkept, List.mem_singleton] at ht
        rw [ht]
      · intro k _ t ht
        rw [hkept, List.mem_singleton] at ht
        rw [ht]
        exact SameExcept.refl k _
      · intro k _
        rw [hkept]
        rfl
      · intro k d index _ hlt
        rw [hkept, catEntry, if_pos hlt]
  · obtain ⟨-, ⟨hkept, rfl⟩ | ⟨t, rest, k, hkept, hk, hsame, rfl⟩⟩ := cat_eq_some hcat
    · exact .inl ⟨rfl, hkept⟩
    · generalize hd : E.resultType (g.map (·.dtype)) = d at hdtype ⊢
      have hlt := wrapDim_lt hk
      have hrank : (join E k d t.shape (t :: rest)).shape.length = t.shape.length :=
        List.length_set ..
      have hsame' : ∀ u ∈ t :: rest, SameExcept k t.shape u.shape :=
        List.forall_mem_cons.mpr ⟨SameExcept.refl k _, hsame⟩
      have hmem : t ∈ kept g := by rw [hkept]; exact List.mem_cons_self ..
      have htshape : t.shape ≠ [0] := by simpa [kept] using (List.mem_filter.mp hmem).2
      have hsize : (join E k d t.shape (t :: rest)).shape.getD k 0 = catSize k (t :: rest) := by
        rw [join, getD_set, if_pos ⟨rfl, hlt⟩]
      have hpos : ∀ l, wrapDim dim (join E k d t.shape (t :: rest)).shape.length = some l →
          l = k := by
        intro l hl
        rw [hrank, hk] at hl
        exact (Option.some.inj hl).symm
      refine .inr ⟨?_, by simp [hkept], ?_, ?_, ?_, ?_⟩
      · intro hzero
        have hlen : t.shape.length = 1 := by rw [← hrank, hzero]; rfl
        obtain rfl : k = 0 := by omega
        rw [hzero, catSize, List.map_cons, List.sum_cons] at hsize
        apply htshape
        apply ext_getD hlen
        intro i hi
        obtain rfl : i = 0 := by omega
        rw [List.getD_cons_zero] at hsize ⊢
        omega
      · intro u hu
        rw [hkept] at hu
        rw [hrank, (hsame' u hu).1]
      · intro l hl u hu
        obtain rfl := hpos l hl
        rw [hkept] at hu
        exact (sameExcept_set l t.shape _).symm.trans (hsame' u hu)
      · intro l hl
        obtain rfl := hpos l hl
        rw [hkept, hsize]
      · intro l e index hl hin
        obtain rfl := hpos l hl
        have hkeptType : ∀ u ∈ t :: rest, u.dtype = d := by
          intro u hu
          rw [← hkept] at hu
          exact hdtype u (List.mem_of_mem_filter hu)
        rw [hkept, catEntry_cast hkeptType]
        congr 1
        show catEntry E l d (t :: rest) index =
          if InBounds index (t.shape.set l (catSize l (t :: rest))) then
            catEntry E l d (t :: rest) index else 0
        split
        · rfl
        · rename_i hout
          exact catEntry_outside hlt hsame' hout

theorem exists_counts {ys : List (Tensor δ ν)} {gs : List (List (Tensor δ ν))}
    (h : List.Forall₂ (StandsFor E dim) ys gs) :
    ∃ gs', List.Forall₂ (Counts E dim) (kept ys) gs' ∧
      kept gs.flatten = (gs'.map kept).flatten := by
  induction h with
  | nil => exact ⟨[], .nil, rfl⟩
  | @cons y g ys gs hy _ ih =>
    obtain ⟨gs', hcounts, hkept⟩ := ih
    have happend : kept (g ++ gs.flatten) = kept g ++ kept gs.flatten := List.filter_append ..
    rcases hy.counts with ⟨hshape, hnone⟩ | hcount
    · refine ⟨gs', ?_, ?_⟩
      · rw [kept, List.filter_cons_of_neg (by simp [hshape])]
        exact hcounts
      · rw [List.flatten_cons, happend, hnone, hkept]
        rfl
    · refine ⟨g :: gs', ?_, ?_⟩
      · rw [kept, List.filter_cons_of_pos (by simp [hcount.shape_ne])]
        exact .cons hcount hcounts
      · rw [List.flatten_cons, happend, hkept]
        rfl

theorem mem_dtypes_iff {ys : List (Tensor δ ν)} {gs : List (List (Tensor δ ν))}
    (h : List.Forall₂ (StandsFor E dim) ys gs) (d : δ) :
    d ∈ ys.map (·.dtype) ↔ d ∈ gs.flatten.map (·.dtype) := by
  induction h with
  | nil => rfl
  | @cons y g ys gs hy _ ih =>
    have hg : d ∈ g.map (·.dtype) ↔ d = y.dtype := by
      constructor
      · intro hd
        obtain ⟨t, ht, rfl⟩ := List.mem_map.mp hd
        exact hy.dtype t ht
      · rintro rfl
        obtain ⟨t, ht⟩ := List.exists_mem_of_ne_nil g hy.ne_nil
        rw [← hy.dtype t ht]
        exact List.mem_map_of_mem ht
    rw [List.map_cons, List.mem_cons, List.flatten_cons, List.map_append, List.mem_append, hg, ih]

theorem flatten_eq_nil_iff {ys : List (Tensor δ ν)} {gs : List (List (Tensor δ ν))}
    (h : List.Forall₂ (StandsFor E dim) ys gs) : gs.flatten = [] ↔ ys = [] := by
  cases h with
  | nil => simp
  | cons hy _ => simp [hy.ne_nil]

theorem catSize_counts {zs : List (Tensor δ ν)} {hs : List (List (Tensor δ ν))} {k : ℕ}
    (h : List.Forall₂ (Counts E dim) zs hs)
    (hk : ∀ z ∈ zs, wrapDim dim z.shape.length = some k) :
    catSize k zs = catSize k (hs.map kept).flatten := by
  induction h with
  | nil => rfl
  | @cons z g zs hs hz _ ih =>
    obtain ⟨hhead, hrest⟩ := List.forall_mem_cons.mp hk
    have hsize : catSize k (z :: zs) = z.shape.getD k 0 + catSize k zs := by
      rw [catSize, List.map_cons, List.sum_cons]
      rfl
    rw [hsize, List.map_cons, List.flatten_cons, catSize_append, hz.size k hhead, ih hrest]

theorem catEntry_counts {zs : List (Tensor δ ν)} {hs : List (List (Tensor δ ν))} {k : ℕ} (d : δ)
    (h : List.Forall₂ (Counts E dim) zs hs)
    (hk : ∀ z ∈ zs, wrapDim dim z.shape.length = some k) (index : List ℕ) :
    catEntry E k d zs index = catEntry E k d (hs.map kept).flatten index := by
  induction h generalizing index with
  | nil => rfl
  | @cons z g zs hs hz _ ih =>
    obtain ⟨hhead, hrest⟩ := List.forall_mem_cons.mp hk
    rw [List.map_cons, List.flatten_cons, catEntry_append, hz.size k hhead, catEntry]
    split
    · rename_i hlt
      exact (hz.entry k d index hhead hlt).symm
    · exact ih hrest _

/-- Concatenating what stands for some tensors is concatenating the tensors. -/
theorem cat_flatten {ys : List (Tensor δ ν)} {gs : List (List (Tensor δ ν))}
    (h : List.Forall₂ (StandsFor E dim) ys gs) : cat E dim ys = cat E dim gs.flatten := by
  have hd : E.resultType (ys.map (·.dtype)) = E.resultType (gs.flatten.map (·.dtype)) :=
    E.resultType_congr _ _ (mem_dtypes_iff h)
  have hnil := flatten_eq_nil_iff h
  obtain ⟨gs', hcounts, hkept⟩ := exists_counts h
  rw [cat, cat, ← hd, hkept]
  generalize E.resultType (ys.map (·.dtype)) = d
  generalize kept ys = zs' at hcounts ⊢
  cases hcounts with
  | nil =>
    have hempty : gs.flatten.isEmpty = ys.isEmpty := by
      rw [Bool.eq_iff_iff, List.isEmpty_iff, List.isEmpty_iff, hnil]
    simp only [List.map_nil, List.flatten_nil, hempty]
  | @cons y g zs hs hy hrest =>
    obtain ⟨t, tail, htail⟩ := List.exists_cons_of_ne_nil hy.kept_ne
    have hmem : t ∈ kept g := by rw [htail]; exact List.mem_cons_self ..
    have hrank := hy.rank t hmem
    simp only [List.map_cons, List.flatten_cons, htail, List.cons_append, hrank]
    cases hk : wrapDim dim y.shape.length with
    | none => rfl
    | some k =>
      have hyt := hy.same k hk t hmem
      have hiff : (∀ u ∈ zs, SameExcept k y.shape u.shape) ↔
          ∀ u ∈ tail ++ (hs.map kept).flatten, SameExcept k t.shape u.shape := by
        constructor
        · intro hall u hu
          rcases List.mem_append.mp hu with hu | hu
          · exact hyt.symm.trans (hy.same k hk u (by rw [htail]; exact List.mem_cons_of_mem _ hu))
          · obtain ⟨l, hl, hu⟩ := List.mem_flatten.mp hu
            obtain ⟨g', hg', rfl⟩ := List.mem_map.mp hl
            obtain ⟨z, hz, hcount⟩ := exists_of_mem_right hrest hg'
            have hyz := hall z hz
            exact (hyt.symm.trans hyz).trans (hcount.same k (hyz.1 ▸ hk) u hu)
        · intro hall z hz
          obtain ⟨g', hg', hcount⟩ := exists_of_mem_left hrest hz
          obtain ⟨u, hu⟩ := List.exists_mem_of_ne_nil _ hcount.kept_ne
          have htu := hall u (List.mem_append_right _
            (List.mem_flatten.mpr ⟨_, List.mem_map_of_mem hg', hu⟩))
          have hzrank : y.shape.length = z.shape.length := by
            rw [← hcount.rank u hu, ← htu.1, hrank]
          exact (hyt.trans htu).trans (hcount.same k (hzrank ▸ hk) u hu).symm
      rw [Option.bind_some, Option.bind_some]
      by_cases hall : ∀ u ∈ zs, SameExcept k y.shape u.shape
      · rw [if_pos hall, if_pos (hiff.mp hall)]
        have hwrap : ∀ z ∈ y :: zs, wrapDim dim z.shape.length = some k := by
          rw [List.forall_mem_cons]
          refine ⟨hk, ?_⟩
          intro z hz
          rw [← (hall z hz).1, hk]
        have hflat : t :: (tail ++ (hs.map kept).flatten) = ((g :: hs).map kept).flatten := by
          rw [List.map_cons, List.flatten_cons, htail, List.cons_append]
        have hshape : y.shape.set k (catSize k (y :: zs)) =
            t.shape.set k (catSize k (t :: (tail ++ (hs.map kept).flatten))) := by
          rw [hflat, ← catSize_counts (.cons hy hrest) hwrap]
          exact hyt.set_eq _
        congr 1
        apply Tensor.ext
        · rfl
        · exact hshape
        · funext index
          show (if InBounds index _ then _ else _) = if InBounds index _ then _ else _
          rw [hshape, catEntry_counts d (.cons hy hrest) hwrap, hflat]
      · rw [if_neg hall, if_neg (mt hiff.mpr hall)]

end Parts

end NemoRL.Foundations.Tensors
