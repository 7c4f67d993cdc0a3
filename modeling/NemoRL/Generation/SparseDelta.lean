import Mathlib
import NemoRL.Foundations.Patches
import NemoRL.Utils.DeltaTracker

namespace NemoRL.Generation.SparseDelta

open Foundations.Patches Utils Utils.SparseCodec

/-- One copy that a native loader makes of a weight: for each element of the
destination view its place in the target storage and the element of the weight. -/
structure TargetCopy where
  storage : ℕ
  places : List (ℕ × ℕ)
  nonempty : places ≠ []
  nodup : (places.map Prod.fst).Nodup

/-- The native loader of a model: the copies of views of each weight into the
storages of parameters and buffers. An element of these is copied from one
element of one weight. -/
structure NativeLoader where
  copies : String → List TargetCopy
  functional : ∀ name name', ∀ c ∈ copies name, ∀ c' ∈ copies name', c.storage = c'.storage →
    ∀ x ∈ c.places, ∀ x' ∈ c'.places, x.1 = x'.1 → name = name' ∧ x.2 = x'.2

abbrev Memory := ℕ × ℕ → ℕ

def discoverNativeSkips (loader : NativeLoader) (reports : Bool)
    (stateDictInfo : List (String × Dtype)) : List String :=
  if reports then
    (stateDictInfo.filter fun x ↦ x.2.isFloatingPoint ∧ loader.copies x.1 = []).map Prod.fst
  else []

def span (c : TargetCopy) : ℕ × ℕ :=
  let positions := c.places.map Prod.fst
  (positions.min?.getD 0, positions.max?.getD 0)

def overlaps (a b : ℕ × ℕ) : Prop := a.1 ≤ b.2 ∧ b.1 ≤ a.2

instance (a b : ℕ × ℕ) : Decidable (overlaps a b) := inferInstanceAs (Decidable (_ ∧ _))

def xorCompatible (copies : List TargetCopy) : Prop :=
  copies.Pairwise fun c c' ↦ c.storage = c'.storage → ¬ overlaps (span c) (span c')

instance (copies : List TargetCopy) : Decidable (xorCompatible copies) :=
  inferInstanceAs (Decidable (List.Pairwise _ _))

def copiedElement (operation : SparseOperation) (dtype : Dtype) (exactSentinel : Option ℕ)
    (destination source : ℕ) : ℕ :=
  match operation, exactSentinel with
  | .xor, _ => if source ≠ 0 then destination ^^^ source else destination
  | .overwrite, some sentinel => if source ≠ sentinel then source else destination
  | .overwrite, none => if dtype.isNaN source then destination else source

def interceptCopies (combine : ℕ → ℕ → ℕ) (source : List ℕ) (memory : Memory)
    (copies : List TargetCopy) : Memory :=
  (copies.flatMap fun c ↦ c.places.map fun x ↦ ((c.storage, x.1), source.getD x.2 0)).foldl
    (fun m w ↦ Function.update m w.1 (combine (m w.1) w.2)) memory

/-- The value unchanged elements are filled with, and the exact sentinel of
one-byte types; nothing where both of its values are taken. -/
def overwriteFill (dtype : Dtype) (values : List ℕ) : Option (ℕ × Option ℕ) :=
  if dtype.itemsize ≠ 1 then some (dtype.nanBits, none)
  else if dtype.nanBits ∉ values then some (dtype.nanBits, some dtype.nanBits)
  else if dtype.nanBits ^^^ 0x80 ∉ values then
    some (dtype.nanBits ^^^ 0x80, some (dtype.nanBits ^^^ 0x80))
  else none

def loaderFill (operation : SparseOperation) (dtype : Dtype) (values : List ℕ) :
    Option (ℕ × Option ℕ) :=
  match operation with
  | .xor => some (0, none)
  | .overwrite => if dtype.isFloatingPoint then overwriteFill dtype values else none

def scatterValues (source : List ℕ) (item : SparseItem) (locations : List ℤ) (values : List ℕ) :
    List ℕ :=
  match item.encoding with
  | .range start => splice source start values
  | .deltas => scatter source ((locations.map Int.toNat).zip values)

def prepareLoaderWeight (item : SparseItem) (locations : List ℤ) (values : Values ℕ) :
    Option (List ℕ × SparseOperation × Dtype × Option ℕ) := do
  let dtype ← dtypeFromName item.dtype
  let filled ← loaderFill item.operation dtype values.data
  if integerDtypeForElementSize dtype.itemsize = some values.dtype then
    let source := List.replicate item.shape.prod filled.1
    return (scatterValues source item locations values.data, item.operation, dtype, filled.2)
  else none

def applyDecodedItem (loader : NativeLoader) (memory : Memory) (item : SparseItem)
    (locations : List ℤ) (values : Values ℕ) : Option Memory := do
  let (source, operation, dtype, exactSentinel) ← prepareLoaderWeight item locations values
  let copies := loader.copies item.name
  if operation = .xor ∧ ¬ xorCompatible copies then none
  else return interceptCopies (copiedElement operation dtype exactSentinel) source memory copies

/-- Whether what the native loader returns, a number of names or nothing, fits
the weights it was seen to copy. -/
def validateLoaderReport (loaded : Option ℕ) (copied observations : ℕ)
    (allowUnknownSkips : Bool) : Bool :=
  match loaded with
  | none => allowUnknownSkips || copied = observations
  | some n => n ≤ copied

def applyDecodedItems (loader : NativeLoader) (report : List String → Option ℕ) (memory : Memory)
    (items : List (SparseItem × List ℤ × Values ℕ)) : Option Memory := do
  let memory' ← items.foldlM (fun m x ↦ applyDecodedItem loader m x.1 x.2.1 x.2.2) memory
  let names := items.map fun x ↦ x.1.name
  let copied := names.filter fun name ↦ loader.copies name ≠ []
  if validateLoaderReport (report names) copied.length names.length false then some memory'
  else none

def loadSparsePayloads (loader : NativeLoader) (report : List String → Option ℕ)
    (skippedNames : List String) (memory : Memory) (payloads : List (TensorPayload ℕ)) :
    Option Memory := do
  let items ← payloads.mapM (iterSparsePayload skippedNames)
  applyDecodedItems loader report memory items.flatten

end NemoRL.Generation.SparseDelta
