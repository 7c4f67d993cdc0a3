import Mathlib
import NemoRL.Foundations.Packing

namespace NemoRL.Data.Packing

open Foundations.Packing

/-- The checks that raise `ValueError`. -/
inductive PackError
  | negativeMinBinCount
  | nonpositiveBinCountMultiple
  | nonpositiveCapacity
  | nonpositiveLength
  | exceedsCapacity (length binCapacity : ℤ)
  | notEnoughSequences (targetBinCount totalSequences : ℕ)
  /-- The branch that asks to be reported as a bug. -/
  | cannotRedistribute (additionalBinsNeeded : ℕ)
  deriving DecidableEq, Repr

structure SequencePacker where
  binCapacity : ℤ
  minBinCount : Option ℕ
  binCountMultiple : Option ℕ
  binCountMultiple_pos : ∀ m ∈ binCountMultiple, 1 ≤ m

abbrev Item := ℕ × ℤ

inductive SizeClass
  | large
  | medium
  | small
  | tiny
  deriving DecidableEq, Repr

/-- The four packers. A shuffle may be any rearrangement. -/
inductive PackingAlgorithm
  | concatenative (maxSequencesPerBin : ℤ)
  | firstFitDecreasing
  | firstFitShuffle (shuffle : List (ℤ × ℕ) → List (ℤ × ℕ))
      (shuffle_perm : ∀ l, (shuffle l).Perm l)
  /-- `quotient` is the float division of two integers. -/
  | modifiedFirstFitDecreasing (quotient : ℤ → ℤ → ℚ)

namespace SequencePacker

def create (binCapacity : ℤ) (minBinCount binCountMultiple : Option ℤ) :
    Except PackError SequencePacker :=
  if minBinCount.any (· < 0) then .error .negativeMinBinCount
  else if hm : ∃ m ∈ binCountMultiple, m < 1 then .error .nonpositiveBinCountMultiple
  else .ok ⟨binCapacity, minBinCount.map Int.toNat, binCountMultiple.map Int.toNat, by
    intro n hn
    obtain ⟨m, hmem, rfl⟩ := Option.map_eq_some_iff.mp hn
    have hge : ¬ m < 1 := fun hlt ↦ hm ⟨m, hmem, hlt⟩
    omega⟩

variable (p : SequencePacker)

def targetBinCount (currentBinCount : ℕ) : ℕ :=
  let target := p.minBinCount.elim currentBinCount (max currentBinCount)
  match p.binCountMultiple with
  | none => target
  | some multiple =>
    let remainder := target % multiple
    if remainder ≠ 0 then target + (multiple - remainder) else target

/-- Move one sequence to the bin at `newBinIdx`. The cursor over `bin_sizes` is
kept as the part of it still ahead. -/
def fillNewBin (additionalBinsNeeded : ℕ) (s : List (List ℕ) × List (ℕ × ℕ)) (newBinIdx : ℕ) :
    Except PackError (List (List ℕ) × List (ℕ × ℕ)) :=
  match s.2.dropWhile fun source ↦ ¬ 1 < (s.1.getD source.2 []).length with
  | [] => .error (.cannotRedistribute additionalBinsNeeded)
  | source :: ahead =>
    match (s.1.getD source.2 []).getLast? with
    | none => .error (.cannotRedistribute additionalBinsNeeded)
    | some sequenceToMove =>
      .ok ((s.1.modify source.2 List.dropLast).modify newBinIdx (· ++ [sequenceToMove]),
        source :: ahead)

def binSizes (bins : List (List ℕ)) : List (ℕ × ℕ) :=
  (bins.zipIdx.map fun b ↦ (b.1.length, b.2)).insertionSort
    fun a b ↦ b.1 < a.1 ∨ (b.1 = a.1 ∧ b.2 ≤ a.2)

def adjustBinCount (bins : List (List ℕ)) : Except PackError (List (List ℕ)) :=
  let target := p.targetBinCount bins.length
  if target = bins.length then .ok bins
  else
    let totalSequences := (bins.map List.length).sum
    if totalSequences < target then .error (.notEnoughSequences target totalSequences)
    else do
      let additional := target - bins.length
      let s ← (List.range' bins.length additional).foldlM (fillNewBin additional)
        (bins ++ List.replicate additional [], binSizes bins)
      return s.1

def validateSequenceLengths (sequenceLengths : List ℤ) : Except PackError Unit :=
  match sequenceLengths.find? (p.binCapacity < ·) with
  | some length => .error (.exceedsCapacity length p.binCapacity)
  | none => .ok ()

end SequencePacker

structure Concatenation where
  bins : List (List ℕ)
  currentBin : List ℕ
  currentLength : ℤ

def Concatenation.finish (s : Concatenation) : List (List ℕ) :=
  if s.currentBin ≠ [] then s.bins ++ [s.currentBin] else s.bins

def Concatenation.push (binCapacity maxSequencesPerBin : ℤ) (s : Concatenation) (x : ℤ × ℕ) :
    Concatenation :=
  if s.currentLength + x.1 > binCapacity ∨
      (maxSequencesPerBin ≠ -1 ∧ (s.currentBin.length : ℤ) ≥ maxSequencesPerBin) then
    ⟨s.finish, [x.2], x.1⟩
  else ⟨s.bins, s.currentBin ++ [x.2], s.currentLength + x.1⟩

def concatenate (binCapacity maxSequencesPerBin : ℤ) (sequenceLengths : List ℤ) :
    List (List ℕ) :=
  (sequenceLengths.zipIdx.foldl (Concatenation.push binCapacity maxSequencesPerBin)
    ⟨[], [], 0⟩).finish

structure FirstFit where
  bins : List (List ℕ)
  binRemaining : List ℤ

def FirstFit.place (binCapacity : ℤ) (s : FirstFit) (x : ℤ × ℕ) : Except PackError FirstFit :=
  if x.1 > binCapacity then .error (.exceedsCapacity x.1 binCapacity)
  else match s.binRemaining.findIdx? (x.1 ≤ ·) with
    | some i => .ok ⟨s.bins.modify i (· ++ [x.2]), s.binRemaining.modify i (· - x.1)⟩
    | none => .ok ⟨s.bins ++ [[x.2]], s.binRemaining ++ [binCapacity - x.1]⟩

def firstFit (binCapacity : ℤ) (indexedLengths : List (ℤ × ℕ)) :
    Except PackError (List (List ℕ)) := do
  let s ← indexedLengths.foldlM (FirstFit.place binCapacity) ⟨[], []⟩
  return s.bins

def sortDecreasing (indexedLengths : List (ℤ × ℕ)) : List (ℤ × ℕ) :=
  indexedLengths.insertionSort fun a b ↦ b.1 < a.1 ∨ (b.1 = a.1 ∧ b.2 ≤ a.2)

namespace ModifiedFirstFit

variable (quotient : ℤ → ℤ → ℚ) (binCapacity : ℤ)

def sizeClass (size : ℤ) : SizeClass :=
  if quotient binCapacity 2 < size then .large
  else if quotient binCapacity 3 < size then .medium
  else if quotient binCapacity 6 < size then .small
  else .tiny

def classifyItems (items : List Item) (c : SizeClass) : List Item :=
  items.filter fun item ↦ sizeClass quotient binCapacity item.2 = c

def sortDescending (items : List Item) : List Item :=
  items.insertionSort fun a b ↦ b.2 ≤ a.2

def sortAscending (items : List Item) : List Item :=
  items.insertionSort fun a b ↦ a.2 ≤ b.2

def remaining (b : List Item) : ℤ := binCapacity - (b.map Prod.snd).sum

def addMedium (b : List Item) (medium : List Item) : List Item × List Item :=
  match medium.findIdx? fun item ↦ item.2 ≤ remaining binCapacity b with
  | some i => (b ++ medium[i]?.toList, medium.eraseIdx i)
  | none => (b, medium)

def hasMedium (b : List Item) : Bool :=
  b.any fun item ↦ quotient binCapacity 3 < item.2 && item.2 ≤ quotient binCapacity 2

def findLastIdx? (test : Item → Bool) (l : List Item) : Option ℕ :=
  (List.range l.length).reverse.find? fun j ↦ (l[j]?).any test

/-- Phase 3 at one bin: the smallest small item and the largest that fits beside it. -/
def addSmallPair (b : List Item) (small : List Item) : List Item × List Item :=
  match small with
  | first :: second :: rest =>
    if hasMedium quotient binCapacity b ∨ first.2 + second.2 > remaining binCapacity b then
      (b, small)
    else match findLastIdx? (fun item ↦ item.2 ≤ remaining binCapacity b - first.2)
        (second :: rest) with
      | some j => (b ++ (first :: (second :: rest)[j]?.toList), (second :: rest).eraseIdx j)
      | none => (b, second :: rest)
  | _ => (b, small)

/-- The `while` loop of phase 4. Each pass takes an item, so that as many
passes as there are items are enough. -/
def fillBin : ℕ → List Item → List Item → List Item × List Item
  | 0, b, items => (b, items)
  | n + 1, b, items =>
    match items.getLast? with
    | none => (b, items)
    | some smallest =>
      if remaining binCapacity b < smallest.2 then (b, items)
      else match items.findIdx? fun item ↦ item.2 ≤ remaining binCapacity b with
        | none => (b, items)
        | some i => fillBin n (b ++ items[i]?.toList) (items.eraseIdx i)

structure Leftovers where
  bins : List (List Item)
  sizes : List ℤ

/-- The position after all entries that are at most `x`, in a sorted list. -/
def bisect (a : List ℤ) (x : ℤ) : ℕ := (a.takeWhile (· ≤ x)).length

/-- Phase 5 at one item: only the first bin is tried, the bins being kept sorted. -/
def Leftovers.place (s : Leftovers) (item : Item) : Leftovers :=
  if item.2 ≤ binCapacity - s.sizes.headD 0 then
    let size := s.sizes.headD 0 + item.2
    let i := bisect s.sizes.tail size
    ⟨s.bins.tail.insertIdx i (s.bins.headD [] ++ [item]), s.sizes.tail.insertIdx i size⟩
  else
    let i := bisect s.sizes item.2
    ⟨s.bins.insertIdx i [item], s.sizes.insertIdx i item.2⟩

def packLeftovers (leftovers : List Item) : List (List Item) :=
  ((sortDescending leftovers).foldl (Leftovers.place binCapacity) ⟨[[]], [0]⟩).bins

def packItems (items : List Item) : List (List Item) :=
  let large := sortDescending (classifyItems quotient binCapacity items .large)
  let medium := sortDescending (classifyItems quotient binCapacity items .medium)
  let small := sortAscending (classifyItems quotient binCapacity items .small)
  let tiny := sortAscending (classifyItems quotient binCapacity items .tiny)
  let r₂ := sweep (addMedium binCapacity) (large.map fun item ↦ [item]) medium
  let r₃ := sweep (addSmallPair quotient binCapacity) r₂.1.reverse small
  let remainingItems := sortDescending (r₂.2 ++ r₃.2 ++ tiny)
  let r₄ := sweep (fun b items ↦ fillBin binCapacity items.length b items) r₃.1.reverse
    remainingItems
  r₄.1 ++ packLeftovers binCapacity r₄.2

end ModifiedFirstFit

namespace SequencePacker

variable (p : SequencePacker)

def modifiedFirstFitDecreasing (quotient : ℤ → ℤ → ℚ) (sequenceLengths : List ℤ) :
    Except PackError (List (List ℕ)) :=
  if p.binCapacity ≤ 0 then .error .nonpositiveCapacity
  else if sequenceLengths.any (· ≤ 0) then .error .nonpositiveLength
  else do
    p.validateSequenceLengths sequenceLengths
    let items := sequenceLengths.zipIdx.map Prod.swap
    let bins := ModifiedFirstFit.packItems quotient p.binCapacity items
    return (bins.filter fun b ↦ !b.isEmpty).map (List.map Prod.fst)

def packImplementation (algorithm : PackingAlgorithm) (sequenceLengths : List ℤ) :
    Except PackError (List (List ℕ)) :=
  match algorithm with
  | .concatenative maxSequencesPerBin => do
    p.validateSequenceLengths sequenceLengths
    return concatenate p.binCapacity maxSequencesPerBin sequenceLengths
  | .firstFitDecreasing => firstFit p.binCapacity (sortDecreasing sequenceLengths.zipIdx)
  | .firstFitShuffle shuffle _ => firstFit p.binCapacity (shuffle sequenceLengths.zipIdx)
  | .modifiedFirstFitDecreasing quotient => p.modifiedFirstFitDecreasing quotient sequenceLengths

def pack (algorithm : PackingAlgorithm) (sequenceLengths : List ℤ) :
    Except PackError (List (List ℕ)) := do
  let bins ← p.packImplementation algorithm sequenceLengths
  p.adjustBinCount bins

end SequencePacker

end NemoRL.Data.Packing
