import Mathlib
import NemoRL.IpcRefit.Stream

namespace NemoRL.IpcRefit

open Utils Utils.PackedTensor Foundations

/-! ### The manifest -/

def names (ps : List Param) : List String := ps.map Prod.fst

@[simp] theorem names_append (ps qs : List Param) : names (ps ++ qs) = names ps ++ names qs :=
  List.map_append ..

/-- Parameters that the manifest does not reject. -/
structure Acceptable (info : StateDictInfo) (ps : List Param) : Prop where
  nodup : (names ps).Nodup
  expected : ∀ k ∈ names ps, k ∈ info.map Prod.fst

def Exact (info : StateDictInfo) (ps : List Param) : Prop :=
  (names ps).Nodup ∧ ∀ k, k ∈ names ps ↔ k ∈ info.map Prod.fst

theorem Acceptable.of_append {info : StateDictInfo} {ps qs : List Param}
    (h : Acceptable info (ps ++ qs)) : Acceptable info ps := by
  obtain ⟨hnodup, hexpected⟩ := h
  rw [names_append] at hnodup hexpected
  exact ⟨(List.nodup_append.mp hnodup).1, fun k hk ↦ hexpected k (List.mem_append_left _ hk)⟩

theorem Exact.acceptable {info : StateDictInfo} {ps : List Param} (h : Exact info ps) :
    Acceptable info ps := ⟨h.1, fun k hk ↦ (h.2 k).mp hk⟩

namespace Manifest

variable {m : Manifest} {keys : List String}

theorem scan_concat (keys : List String) (key : String) :
    scan (keys ++ [key]) = (insert key (scan keys).1,
      if key ∈ (scan keys).1 then insert key (scan keys).2 else (scan keys).2) := by
  rw [scan, List.foldl_append]
  rfl

theorem scan_fst (keys : List String) : (scan keys).1 = keys.toFinset := by
  induction keys using List.reverseRecOn with
  | nil => rfl
  | append_singleton keys key ih =>
    rw [scan_concat, ih]
    ext k
    simp

theorem scan_snd_eq_empty : (scan keys).2 = ∅ ↔ keys.Nodup := by
  induction keys using List.reverseRecOn with
  | nil => exact iff_of_true rfl List.nodup_nil
  | append_singleton keys key ih =>
    rw [scan_concat, List.nodup_append_comm, List.singleton_append, List.nodup_cons]
    simp only [scan_fst, List.mem_toFinset]
    split_ifs with hmem
    · simp [hmem]
    · rw [ih]
      simp [hmem]

@[simp] theorem validateBatch_expectedKeys :
    (m.validateBatch keys).1.expectedKeys = m.expectedKeys := rfl

@[simp] theorem validateBatch_loadedKeys :
    (m.validateBatch keys).1.loadedKeys = m.loadedKeys := rfl

/-- A batch is accepted if nothing was rejected or failed before and its keys
are new, distinct and expected. -/
theorem validateBatch_errors :
    (m.validateBatch keys).1.errors = [] ↔ m.errors = [] ∧ keys.Nodup ∧
      (∀ k ∈ keys, k ∉ m.loadedKeys) ∧ ∀ k ∈ keys, k ∈ m.expectedKeys := by
  simp only [validateBatch, List.append_eq_nil_iff, ite_eq_left_iff, reduceCtorEq, imp_false,
    Decidable.not_not, Finset.union_eq_empty, scan_snd_eq_empty, scan_fst,
    Finset.sdiff_eq_empty_iff_subset]
  have hloaded : m.loadedKeys ∩ keys.toFinset = ∅ ↔ ∀ k ∈ keys, k ∉ m.loadedKeys := by
    rw [← Finset.disjoint_iff_inter_eq_empty, Finset.disjoint_right]
    simp
  have hexpected : keys.toFinset ⊆ m.expectedKeys ↔ ∀ k ∈ keys, k ∈ m.expectedKeys := by
    simp [Finset.subset_iff]
  rw [hloaded, hexpected]
  tauto

variable (m keys) in
theorem validateBatch_snd :
    (m.validateBatch keys).2 =
      if (m.validateBatch keys).1.errors = [] then some keys.toFinset else none := by
  simp only [validateBatch, scan_fst]

end Manifest

/-! ### The staging layout -/

theorem le_calculateAlignedSize (n : ℕ) : n ≤ calculateAlignedSize n := by
  simp only [calculateAlignedSize]
  omega

theorem calculateAlignedSize_mod (n : ℕ) : calculateAlignedSize n % 512 = 0 := by
  simp only [calculateAlignedSize, Nat.mul_mod_left]

def alignedSum (ps : List Param) : ℕ := (ps.map Param.alignedSize).sum

@[simp] theorem alignedSum_append (ps qs : List Param) :
    alignedSum (ps ++ qs) = alignedSum ps + alignedSum qs := by
  rw [alignedSum, List.map_append, List.sum_append]
  rfl

@[simp] theorem alignedSum_singleton (p : Param) : alignedSum [p] = p.alignedSize := by
  simp [alignedSum]

/-- The parameters stand one after the other from an offset on. -/
def Holds (b : Buffer UInt8) : ℕ → List Param → Prop
  | _, [] => True
  | offset, p :: ps => b.slice offset p.nbytes = p.2.bytes ∧ Holds b (offset + p.alignedSize) ps

theorem Holds.congr {b b' : Buffer UInt8} {offset : ℕ} {ps : List Param} (h : Holds b offset ps)
    (hb : ∀ i, offset ≤ i → i < offset + alignedSum ps → b' i = b i) : Holds b' offset ps := by
  induction ps generalizing offset with
  | nil => trivial
  | cons p ps ih =>
    obtain ⟨hslice, hrest⟩ := h
    have hsum : alignedSum (p :: ps) = p.alignedSize + alignedSum ps := rfl
    have hle : p.nbytes ≤ p.alignedSize := le_calculateAlignedSize _
    refine ⟨?_, ih hrest fun i hlo hhi ↦ hb i (by omega) (by omega)⟩
    rw [← hslice]
    exact Buffer.slice_congr fun i hlo hhi ↦ hb i hlo (by omega)

theorem Holds.concat {b : Buffer UInt8} {offset : ℕ} {ps : List Param} {p : Param}
    (h : Holds b offset ps) (hp : b.slice (offset + alignedSum ps) p.nbytes = p.2.bytes) :
    Holds b offset (ps ++ [p]) := by
  induction ps generalizing offset with
  | nil => exact ⟨hp, trivial⟩
  | cons q ps ih =>
    obtain ⟨hslice, hrest⟩ := h
    refine ⟨hslice, ih hrest ?_⟩
    rw [Nat.add_assoc]
    exact hp

theorem Holds.pack {b : Buffer UInt8} {ps : List Param} (p : Param) (h : Holds b 0 ps) :
    Holds (packTensor b p (alignedSum ps)) 0 (ps ++ [p]) := by
  refine Holds.concat (h.congr fun i _ hi ↦ Buffer.write_outside (.inl (by omega))) ?_
  rw [Nat.zero_add]
  exact Buffer.slice_write ..

/-! ### The receiver's views -/

/-- What the receiver is to load for a parameter: its bytes, with the shape and
the element type of the manifest. -/
def sentAs (info : StateDictInfo) (p : Param) : Loaded :=
  let (shape, dtype) := (info.lookup p.1).getD (p.2.shape, p.2.dtype)
  (p.1, shape, dtype, p.2.bytes)

/-- Each sent tensor has the byte size of its entry in the manifest. -/
def SizesMatch (info : StateDictInfo) (ps : List Param) : Prop :=
  ∀ p ∈ ps, ∀ shape dtype, info.lookup p.1 = some (shape, dtype) →
    p.nbytes = dtype.itemsize * shape.prod

theorem mod_itemsize (d : Dtype) {n : ℕ} (h : n % 512 = 0) : n % d.itemsize = 0 := by
  refine Nat.mod_eq_zero_of_dvd (Nat.dvd_trans ?_ (Nat.dvd_of_mod_eq_zero h))
  cases d <;> decide

theorem buildViews_spec {info : StateDictInfo} {size offset : ℕ} {b : Buffer UInt8} {ps : List Param}
    (hsizes : SizesMatch info ps) (hknown : ∀ k ∈ names ps, k ∈ info.map Prod.fst)
    (hholds : Holds b offset ps) (hoffset : offset % 512 = 0)
    (hsize : offset + alignedSum ps ≤ size) :
    ∃ views, buildViews info size (names ps) offset = some (views, offset + alignedSum ps) ∧
      views.map (View.read b) = ps.map (sentAs info) := by
  induction ps generalizing offset with
  | nil => exact ⟨[], rfl, rfl⟩
  | cons p ps ih =>
    obtain ⟨hslice, hrest⟩ := hholds
    have hsum : alignedSum (p :: ps) = p.alignedSize + alignedSum ps := rfl
    have hle : p.nbytes ≤ p.alignedSize := le_calculateAlignedSize _
    have halign : p.alignedSize % 512 = 0 := calculateAlignedSize_mod _
    obtain ⟨⟨shape, dtype⟩, hlookup⟩ : ∃ entry, info.lookup p.1 = some entry := by
      obtain ⟨⟨k, entry⟩, hmem, hk⟩ := List.mem_map.mp (hknown p.1 (List.mem_cons_self ..))
      refine Option.isSome_iff_exists.mp (Option.isSome_iff_ne_none.mpr fun hnone ↦ ?_)
      have hne := List.lookup_eq_none_iff.mp hnone (k, entry) hmem
      simp only [bne_iff_ne, ne_eq] at hne
      exact hne hk.symm
    have hbytes := hsizes p (List.mem_cons_self ..) shape dtype hlookup
    obtain ⟨views, hviews, hread⟩ := @ih (offset + p.alignedSize)
      (fun q hq ↦ hsizes q (List.mem_cons_of_mem _ hq))
      (fun k hk ↦ hknown k (List.mem_cons_of_mem _ hk)) hrest (by omega) (by omega)
    have hstart : min offset size = offset := by omega
    have hstop : min (offset + p.nbytes) size = offset + p.nbytes := by omega
    refine ⟨⟨p.1, shape, dtype, offset, p.nbytes⟩ :: views, ?_, ?_⟩
    · have hnames : names (p :: ps) = p.1 :: names ps := rfl
      have haligned : calculateAlignedSize p.nbytes = p.alignedSize := rfl
      simp only [hnames, buildViews, hlookup, Option.bind_eq_bind, Option.bind_some, ← hbytes, hstart,
        hstop, haligned, hviews]
      rw [if_pos ⟨by omega, mod_itemsize dtype hoffset⟩, hsum, Nat.add_assoc]
    · rw [List.map_cons, List.map_cons, hread]
      simp only [View.read, sentAs, hslice, hlookup, Option.getD_some]

end NemoRL.IpcRefit
