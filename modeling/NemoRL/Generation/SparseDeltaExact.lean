import Mathlib
import NemoRL.Generation.SparseDelta
import NemoRL.Utils.SparseRoundTrip

namespace NemoRL.Generation.SparseDelta

open Foundations Foundations.Patches Utils Utils.SparseCodec Utils.DeltaTracker

def Mirrors (loader : NativeLoader) (memory : Memory) (name : String) (bits : List ℕ) : Prop :=
  ∀ c ∈ loader.copies name, ∀ x ∈ c.places, memory (c.storage, x.1) = bits.getD x.2 0

section Writes

variable {κ : Type*} [DecidableEq κ] {combine : ℕ → ℕ → ℕ}

def applyWrites (combine : ℕ → ℕ → ℕ) (m : κ → ℕ) (ws : List (κ × ℕ)) : κ → ℕ :=
  ws.foldl (fun m w ↦ Function.update m w.1 (combine (m w.1) w.2)) m

theorem applyWrites_of_notMem {ws : List (κ × ℕ)} {p : κ} (h : p ∉ ws.map Prod.fst) (m : κ → ℕ) :
    applyWrites combine m ws p = m p := by
  induction ws generalizing m with
  | nil => rfl
  | cons w ws ih =>
    obtain ⟨hne, hrest⟩ : p ≠ w.1 ∧ p ∉ ws.map Prod.fst := by simpa using h
    rw [applyWrites, List.foldl_cons, ← applyWrites, ih hrest]
    exact Function.update_of_ne hne _ _

/-- Where a place is written again, with the same value and to no effect, it is
as if it was written once. -/
theorem applyWrites_of_mem {ws : List (κ × ℕ)} (h : ws.Pairwise fun w w' ↦ w.1 = w'.1 →
    w.2 = w'.2 ∧ ∀ x, combine (combine x w.2) w.2 = combine x w.2)
    {w : κ × ℕ} (hw : w ∈ ws) (m : κ → ℕ) :
    applyWrites combine m ws w.1 = combine (m w.1) w.2 := by
  induction ws generalizing m w with
  | nil => cases hw
  | cons v ws ih =>
    obtain ⟨hv, hws⟩ := List.pairwise_cons.mp h
    rw [applyWrites, List.foldl_cons, ← applyWrites]
    rcases List.mem_cons.mp hw with rfl | hw
    · by_cases hagain : w.1 ∈ ws.map Prod.fst
      · obtain ⟨u, hu, he⟩ := List.mem_map.mp hagain
        obtain ⟨hval, hidem⟩ := hv u hu he.symm
        have hlast := ih hws hu (Function.update m w.1 (combine (m w.1) w.2))
        rw [he, ← hval, Function.update_self, hidem] at hlast
        exact hlast
      · rw [applyWrites_of_notMem hagain, Function.update_self]
    · rw [ih hws hw]
      by_cases he : v.1 = w.1
      · obtain ⟨hval, hidem⟩ := hv w hw he
        rw [← he, Function.update_self, ← hval, hidem]
      · rw [Function.update_of_ne (Ne.symm he)]

end Writes

section Copies

variable {loader : NativeLoader} {name : String} {source : List ℕ} {combine : ℕ → ℕ → ℕ}
  {memory : Memory}

def writesOf (copies : List TargetCopy) (source : List ℕ) : List ((ℕ × ℕ) × ℕ) :=
  copies.flatMap fun c ↦ c.places.map fun x ↦ ((c.storage, x.1), source.getD x.2 0)

theorem mem_writesOf {copies : List TargetCopy} {w : (ℕ × ℕ) × ℕ} :
    w ∈ writesOf copies source ↔
      ∃ c ∈ copies, ∃ x ∈ c.places, w = ((c.storage, x.1), source.getD x.2 0) := by
  simp only [writesOf, List.mem_flatMap, List.mem_map, eq_comm]

theorem mem_span {c : TargetCopy} {x : ℕ × ℕ} (hx : x ∈ c.places) :
    (span c).1 ≤ x.1 ∧ x.1 ≤ (span c).2 := by
  have hm : x.1 ∈ c.places.map Prod.fst := List.mem_map_of_mem hx
  exact ⟨List.min?_getD_le_of_mem hm, List.le_max?_getD_of_mem hm⟩

theorem nodup_writesOf {copies : List TargetCopy} (h : xorCompatible copies) :
    (writesOf copies source).Pairwise fun w w' ↦ w.1 ≠ w'.1 := by
  unfold writesOf
  rw [List.pairwise_flatMap]
  constructor
  · intro c _
    rw [List.pairwise_map]
    refine (List.pairwise_map.mp c.nodup).imp fun hne he ↦ hne ?_
    exact (Prod.mk.inj he).2
  · refine h.imp fun {c c'} hdisjoint w hw w' hw' he ↦ ?_
    obtain ⟨x, hx, rfl⟩ := List.mem_map.mp hw
    obtain ⟨x', hx', rfl⟩ := List.mem_map.mp hw'
    obtain ⟨hstorage, hplace⟩ := Prod.mk.inj he
    have hs := mem_span hx
    have hs' := mem_span hx'
    apply hdisjoint hstorage
    unfold overlaps
    omega

theorem writesOf_functional (loader : NativeLoader) (name : String) (source : List ℕ) :
    ∀ w ∈ writesOf (loader.copies name) source, ∀ w' ∈ writesOf (loader.copies name) source,
      w.1 = w'.1 → w.2 = w'.2 := by
  intro w hw w' hw' he
  obtain ⟨c, hc, x, hx, rfl⟩ := mem_writesOf.mp hw
  obtain ⟨c', hc', x', hx', rfl⟩ := mem_writesOf.mp hw'
  obtain ⟨hstorage, hplace⟩ := Prod.mk.inj he
  rw [(loader.functional name name c hc c' hc' hstorage x hx x' hx' hplace).2]

theorem interceptCopies_spec
    (h : xorCompatible (loader.copies name) ∨ ∀ s x, combine (combine x s) s = combine x s)
    {before after : List ℕ} (hm : Mirrors loader memory name before)
    (hc : ∀ j, combine (before.getD j 0) (source.getD j 0) = after.getD j 0) :
    Mirrors loader (interceptCopies combine source memory (loader.copies name)) name after ∧
      ∀ other bits, other ≠ name → Mirrors loader memory other bits →
        Mirrors loader (interceptCopies combine source memory (loader.copies name)) other bits := by
  have hpair : (writesOf (loader.copies name) source).Pairwise fun w w' ↦ w.1 = w'.1 →
      w.2 = w'.2 ∧ ∀ x, combine (combine x w.2) w.2 = combine x w.2 := by
    rcases h with h | h
    · exact (nodup_writesOf h).imp fun hne he ↦ absurd he hne
    · refine List.pairwise_of_forall_mem_list fun w hw w' hw' he ↦ ⟨?_, h w.2⟩
      exact writesOf_functional loader name source w hw w' hw' he
  refine ⟨fun c hc' x hx ↦ ?_, fun other bits hne hother c hc' x hx ↦ ?_⟩
  · have hw : ((c.storage, x.1), source.getD x.2 0) ∈ writesOf (loader.copies name) source :=
      mem_writesOf.mpr ⟨c, hc', x, hx, rfl⟩
    have hgoal := applyWrites_of_mem hpair hw memory
    rw [hm c hc' x hx, hc] at hgoal
    exact hgoal
  · refine (applyWrites_of_notMem (fun hmem ↦ ?_) memory).trans (hother c hc' x hx)
    obtain ⟨w, hw, he⟩ := List.mem_map.mp hmem
    obtain ⟨c', hcn, x', hx', rfl⟩ := mem_writesOf.mp hw
    obtain ⟨hstorage, hplace⟩ := Prod.mk.inj he
    exact hne (loader.functional name other c' hcn c hc' hstorage x' hx' x hx hplace).1.symm

end Copies

section Items

variable {loader : NativeLoader} {memory memory' : Memory} {p : TensorPayload ℕ} {item : SparseItem}
  {info : SparseInfo ℕ}

/-- The scratch tensor holds the values at their locations and the fill elsewhere. -/
theorem scatterValues_spec (hd : Describes p item info) {f : ℕ → ℕ}
    (hf : info.values.data = info.locations.map f) (hne : info.locations ≠ []) {source : List ℕ}
    (hbound : ∀ l ∈ info.locations, l < source.length) (j : ℕ) :
    (scatterValues source item (info.locations.map fun l : ℕ ↦ (l : ℤ)) info.values.data)[j]? =
      if j ∈ info.locations then source[j]?.map fun _ ↦ f j else source[j]? := by
  have hwritten : scatterValues source item (info.locations.map fun l : ℕ ↦ (l : ℤ))
      info.values.data = scatter source (info.locations.map fun i ↦ (i, f i)) := by
    have hlocated := hd.located
    cases hencoding : item.encoding with
    | range start =>
      rw [hencoding] at hlocated
      have hpos := List.length_pos_of_ne_nil hne
      have hlast : start + (info.locations.length - 1) ∈ info.locations := by
        rw [hlocated, List.mem_range'_1, List.length_range']
        omega
      have hlt := hbound _ hlast
      have hsplice := scatter_range' f (by omega : start + info.locations.length ≤ source.length)
      rw [← hlocated] at hsplice
      simp only [scatterValues, hencoding, hf]
      exact hsplice.symm
    | deltas =>
      simp only [scatterValues, hencoding, hf, List.map_map, List.zip_map']
      simp
  rw [hwritten]
  exact getElem?_scatter f info.locations source j

/-- An overwrite that a NaN is the sign of an unchanged element for changes no
element to a NaN. -/
def Sendable (cfg : TrackerConfig) (baseline : List ℕ) (tensor : NamedTensor) : Prop :=
  operationOf cfg tensor.name = .overwrite → tensor.dtype.itemsize ≠ 1 →
    ∀ i ∈ changed baseline tensor.bits, tensor.dtype.isNaN (tensor.bits.getD i 0) = false

variable {cfg : TrackerConfig} {baseline : List ℕ} {tensor : NamedTensor} {u : PendingUpdate}

theorem delta_spec (h : delta cfg baseline tensor = some (info, u)) :
    info.name = tensor.name ∧ info.shape = tensor.shape ∧ info.dtype = tensor.dtype ∧
      info.locations = changed baseline tensor.bits ∧
      info.values.data = info.locations.map
        (sentValue (operationOf cfg tensor.name) baseline tensor.bits) ∧
      info.operation = operationOf cfg tensor.name ∧
      u = ⟨tensor.name, info.locations, info.locations.map (tensor.bits.getD · 0)⟩ := by
  obtain ⟨integer, -, h⟩ := Option.bind_eq_some_iff.mp h
  obtain ⟨rfl, rfl⟩ := Prod.mk.inj (Option.some.inj h)
  exact ⟨rfl, rfl, rfl, rfl, rfl, rfl, rfl⟩

theorem delta_valid (h : delta cfg baseline tensor = some (info, u)) (hne : info.locations ≠ []) :
    info.Valid := by
  obtain ⟨-, hshape, -, hlocations, hvalues, -, -⟩ := delta_spec h
  refine ⟨hne, ?_, fun l hl ↦ ?_, ?_, ?_⟩
  · rw [hlocations]
    exact pairwise_changed _ _
  · rw [hlocations] at hl
    rw [hshape, ← tensor.size]
    exact (mem_changed.mp hl).1
  · rw [hshape]
    exact tensor.fits
  · rw [hvalues, List.length_map]

theorem getD_of_notMem_changed {l l' : List ℕ} {j : ℕ} (hlen : l.length = l'.length)
    (hj : j ∉ changed l l') : l.getD j 0 = l'.getD j 0 := by
  rcases Nat.lt_or_ge j l'.length with hlt | hge
  · have he : l[j]? = l'[j]? := by
      by_contra hne
      exact hj (mem_changed.mpr ⟨hlt, hne⟩)
    rw [List.getD_eq_getElem?_getD, List.getD_eq_getElem?_getD, he]
  · rw [List.getD_eq_default _ _ (by omega), List.getD_eq_default _ _ hge]

theorem getD_ne_of_mem_changed {l l' : List ℕ} {j : ℕ} (hlen : l.length = l'.length)
    (hj : j ∈ changed l l') : l.getD j 0 ≠ l'.getD j 0 := by
  obtain ⟨hlt, hne⟩ := mem_changed.mp hj
  intro he
  apply hne
  rw [List.getElem?_eq_getElem (by omega : j < l.length), List.getElem?_eq_getElem hlt]
  rw [List.getD_eq_getElem _ _ (by omega : j < l.length), List.getD_eq_getElem _ _ hlt] at he
  rw [he]

/-- The scratch tensor of a delta, combined with the old bits, gives the new ones. -/
theorem combine_source (hd : Describes p item info) (h : delta cfg baseline tensor = some (info, u))
    (hne : info.locations ≠ []) (hlen : baseline.length = tensor.bits.length) {fill : ℕ}
    {combine : ℕ → ℕ → ℕ} (hfill : ∀ x, combine x fill = x) (hzero : combine 0 0 = 0)
    (hsent : ∀ i ∈ changed baseline tensor.bits, combine (baseline.getD i 0)
      (sentValue (operationOf cfg tensor.name) baseline tensor.bits i) = tensor.bits.getD i 0)
    (j : ℕ) :
    combine (baseline.getD j 0) ((scatterValues (List.replicate item.shape.prod fill) item
      (info.locations.map fun l : ℕ ↦ (l : ℤ)) info.values.data).getD j 0) =
        tensor.bits.getD j 0 := by
  obtain ⟨-, hshape, -, hlocations, hvalues, -, -⟩ := delta_spec h
  have hsize : item.shape.prod = tensor.bits.length := by rw [hd.shape, hshape, tensor.size]
  have hbound : ∀ l ∈ info.locations, l < (List.replicate item.shape.prod fill).length := by
    intro l hl
    rw [hlocations] at hl
    rw [List.length_replicate, hsize]
    exact (mem_changed.mp hl).1
  rw [List.getD_eq_getElem?_getD (l := scatterValues _ _ _ _),
    scatterValues_spec hd hvalues hne hbound j, hsize, List.getElem?_replicate]
  rcases Nat.lt_or_ge j tensor.bits.length with hlt | hge
  · split_ifs with hj
    · rw [hlocations] at hj
      exact hsent j hj
    · rw [hlocations] at hj
      simp only [Option.getD_some, hfill]
      exact getD_of_notMem_changed hlen hj
  · have hj : j ∉ info.locations := by
      rw [hlocations]
      exact fun hm ↦ absurd (mem_changed.mp hm).1 (by omega)
    rw [if_neg hj, if_neg (by omega), List.getD_eq_default baseline 0 (by omega),
      List.getD_eq_default tensor.bits 0 hge]
    exact hzero

theorem overwriteFill_spec {dtype : Dtype} {values : List ℕ} {filled : ℕ × Option ℕ}
    (h : overwriteFill dtype values = some filled) :
    dtype.itemsize = 1 ∧ filled.2 = some filled.1 ∧ filled.1 ∉ values ∨
      dtype.itemsize ≠ 1 ∧ filled = (dtype.nanBits, none) := by
  unfold overwriteFill at h
  by_cases hsize : dtype.itemsize ≠ 1
  · rw [if_pos hsize] at h
    exact .inr ⟨hsize, (Option.some.inj h).symm⟩
  · rw [if_neg hsize] at h
    by_cases hin : dtype.nanBits ∉ values
    · rw [if_pos hin] at h
      obtain rfl := Option.some.inj h
      exact .inl ⟨not_not.mp hsize, rfl, hin⟩
    · rw [if_neg hin] at h
      by_cases hflip : dtype.nanBits ^^^ 0x80 ∉ values
      · rw [if_pos hflip] at h
        obtain rfl := Option.some.inj h
        exact .inl ⟨not_not.mp hsize, rfl, hflip⟩
      · rw [if_neg hflip] at h
        cases h

theorem applyDecodedItem_spec (hd : Describes p item info)
    (h : delta cfg baseline tensor = some (info, u)) (hne : info.locations ≠ [])
    (hlen : baseline.length = tensor.bits.length) (hsend : Sendable cfg baseline tensor)
    (hm : Mirrors loader memory tensor.name baseline)
    (happ : applyDecodedItem loader memory item (info.locations.map fun l : ℕ ↦ (l : ℤ))
      info.values = some memory') :
    Mirrors loader memory' tensor.name tensor.bits ∧
      ∀ other bits, other ≠ tensor.name → Mirrors loader memory other bits →
        Mirrors loader memory' other bits := by
  obtain ⟨hname, -, hdtype, hlocations, hvalues, hop, -⟩ := delta_spec h
  obtain ⟨⟨source, operation, dtype, sentinel⟩, hprep, happ⟩ := Option.bind_eq_some_iff.mp happ
  unfold prepareLoaderWeight at hprep
  obtain ⟨dtype', hdt, hprep⟩ := Option.bind_eq_some_iff.mp hprep
  obtain rfl : dtype' = tensor.dtype := by
    rw [hd.dtype, hdtype, dtypeFromName_name] at hdt
    exact (Option.some.inj hdt).symm
  obtain ⟨filled, hfill, hprep⟩ := Option.bind_eq_some_iff.mp hprep
  by_cases hinteger : integerDtypeForElementSize tensor.dtype.itemsize = some info.values.dtype
  swap
  · rw [if_neg hinteger] at hprep
    cases hprep
  rw [if_pos hinteger] at hprep
  have hitem : item.operation = operationOf cfg tensor.name := hd.operation.trans hop
  have hitemName : item.name = tensor.name := hd.name.trans hname
  obtain ⟨rfl, rfl, rfl, rfl⟩ : scatterValues (List.replicate item.shape.prod filled.1) item
      (info.locations.map fun l : ℕ ↦ (l : ℤ)) info.values.data = source ∧
        item.operation = operation ∧ tensor.dtype = dtype ∧ filled.2 = sentinel := by
    simpa using hprep
  simp only at happ
  rw [hitemName] at happ
  by_cases hxor : item.operation = .xor ∧ ¬ xorCompatible (loader.copies tensor.name)
  · rw [if_pos hxor] at happ
    cases happ
  rw [if_neg hxor] at happ
  obtain rfl := Option.some.inj happ
  rw [hitem] at hfill hxor ⊢
  cases hoperation : operationOf cfg tensor.name with
  | xor =>
    rw [hoperation] at hfill hxor
    obtain rfl := Option.some.inj hfill
    have hcompatible : xorCompatible (loader.copies tensor.name) := by simpa using hxor
    refine interceptCopies_spec (.inl hcompatible) hm
      (combine_source hd h hne hlen (by simp [copiedElement]) (by simp [copiedElement]) ?_)
    intro i hi
    have hdiff := getD_ne_of_mem_changed hlen hi
    have hnz : tensor.bits.getD i 0 ^^^ baseline.getD i 0 ≠ 0 := by
      rw [ne_eq, Nat.xor_eq_zero_iff]
      exact Ne.symm hdiff
    rw [hoperation, sentValue, copiedElement, if_pos hnz, Nat.xor_comm (tensor.bits.getD i 0),
      ← Nat.xor_assoc, Nat.xor_self, Nat.zero_xor]
  | overwrite =>
    rw [hoperation] at hfill
    have hfloat : tensor.dtype.isFloatingPoint = true := by
      by_contra hnot
      simp [loaderFill, hnot] at hfill
    rw [loaderFill, if_pos hfloat] at hfill
    rcases overwriteFill_spec hfill with ⟨-, hsentinel, hfresh⟩ | ⟨hsize, rfl⟩
    · rw [hsentinel]
      refine interceptCopies_spec (.inr ?_) hm
        (combine_source hd h hne hlen (by simp [copiedElement]) (by simp [copiedElement]) ?_)
      · intro s x
        by_cases hs : s = filled.1 <;> simp [copiedElement, hs]
      · intro i hi
        have hval : tensor.bits.getD i 0 ∈ info.values.data := by
          rw [hvalues, hlocations, hoperation]
          exact List.mem_map_of_mem hi
        have hother : tensor.bits.getD i 0 ≠ filled.1 := fun he ↦ hfresh (he ▸ hval)
        rw [hoperation, sentValue, copiedElement, if_pos hother]
    · refine interceptCopies_spec (.inr ?_) hm
        (combine_source hd h hne hlen ?_ (by simp [copiedElement]) ?_)
      · intro s x
        by_cases hs : tensor.dtype.isNaN s <;> simp [copiedElement, hs]
      · intro x
        simp [copiedElement, Dtype.isNaN_nanBits hfloat]
      · intro i hi
        rw [hoperation, sentValue, copiedElement, hsend hoperation hsize i hi]
        rfl

end Items

end NemoRL.Generation.SparseDelta
