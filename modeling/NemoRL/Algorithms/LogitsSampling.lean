import Mathlib
import NemoRL.Foundations.Blocks

namespace NemoRL.Algorithms.LogitsSampling

open Foundations.Blocks

/-- A row of logits over a vocabulary, with `⊥` for minus infinity. -/
abbrev Row (L : Type) (V : ℕ) := Fin V → WithBot L

abbrev Mask (V : ℕ) := Fin V → Bool

inductive FilterError
  /-- `torch.topk` or `gather` with an index outside of the row. -/
  | indexOutOfRange
  /-- `ValueError: range() arg 3 must not be zero`. -/
  | zeroStep
  deriving DecidableEq

def needTopKFiltering (topK : Option ℤ) : Bool := topK.any (0 < ·)

def needTopPFiltering {K : Type} [One K] [DecidableEq K] (topP : K) : Bool := topP ≠ 1

section Tensors

variable {α : Type} {V : ℕ}

def topk [LinearOrder α] (row : Fin V → α) (k : ℕ) : Except FilterError (List α) :=
  if V < k then .error .indexOutOfRange
  else .ok (((List.ofFn row).mergeSort fun a b ↦ b ≤ a).take k)

def gather (row : Fin V → α) (index : ℤ) : Except FilterError α :=
  if h : 0 ≤ index ∧ index.toNat < V then .ok (row ⟨index.toNat, h.2⟩)
  else .error .indexOutOfRange

def scatter (dst : Fin V → α) (idx : Fin V → Fin V) (src : Fin V → α) : Fin V → α :=
  (List.finRange V).foldl (fun t j ↦ Function.update t (idx j) (src j)) dst

def fillDropped {L : Type} (keep : Mask V) (row : Row L V) : Row L V :=
  fun j ↦ if keep j then row j else ⊥

end Tensors

section TopK

variable {L : Type} [LinearOrder L] {V : ℕ}

def topKOnlyRow (topK : ℕ) (row : Row L V) : Except FilterError (Row L V × Mask V) := do
  let topKValues ← topk row topK
  let threshold ← topKValues.getLast?.elim (.error .indexOutOfRange) .ok
  let keepMask : Mask V := fun j ↦ threshold ≤ row j
  return (fillDropped keepMask row, keepMask)

def applyTopKOnlyFn (logits : List (Row L V)) (topK : Option ℤ) :
    Except FilterError (List (Row L V) × Option (List (Mask V))) := do
  if needTopKFiltering topK then
    let rows ← logits.mapM (topKOnlyRow (topK.getD 0).toNat)
    return (rows.map Prod.fst, some (rows.map Prod.snd))
  else return (logits, none)

def topKKeepMask (sorted : Row L V) (topK : ℤ) : Except FilterError (Mask V) := do
  let threshold ← gather sorted (V - topK)
  return fun j ↦ threshold ≤ sorted j

end TopK

section TopP

variable {L K : Type} [Field K] {V : ℕ}

def mass (weight : L → K) (x : WithBot L) : K := x.recBotCoe 0 weight

def softmax (weight : L → K) (row : Row L V) (j : Fin V) : K :=
  mass weight (row j) / ∑ i, mass weight (row i)

def cumsum (probs : Fin V → K) (j : Fin V) : K := ∑ i ∈ Finset.Iic j, probs i

/-- The mask of the nucleus of a sorted row, with at least the last entry. -/
def topPKeepMask [LinearOrder K] (weight : L → K) (sorted : Row L V) (topP : K) : Mask V :=
  fun j ↦ decide (1 - topP < cumsum (softmax weight sorted) j) || decide ((j : ℕ) + 1 = V)

end TopP

section Filter

variable {L K : Type} [LinearOrder L] [Field K] [LinearOrder K] {V : ℕ}
  (sort : Row L V → Equiv.Perm (Fin V)) (weight : L → K)

/-- A row of the loop over the chunks: sorted, filtered, and scattered back. -/
def filterRow (topK : Option ℤ) (topP : K) (logits : Row L V) :
    Except FilterError (Row L V × Mask V) := do
  let logitsIdx := sort logits
  let logitsSort : Row L V := fun j ↦ logits (logitsIdx j)
  let topKMask ← if needTopKFiltering topK
    then (topKKeepMask logitsSort (topK.getD 0)).map some else .ok none
  let topKSort := topKMask.elim logitsSort fun keep ↦ fillDropped keep logitsSort
  let topPMask := topPKeepMask weight topKSort topP
  let filtered := fillDropped topPMask topKSort
  let mask : Mask V := topKMask.elim topPMask fun keep j ↦ keep j && topPMask j
  return (scatter filtered logitsIdx filtered, scatter mask logitsIdx mask)

def applyTopKTopPFn (logits : List (Row L V)) (topK : Option ℤ) (topP : K)
    (chunkSize : Option ℕ) : Except FilterError (List (Row L V) × Option (List (Mask V))) := do
  if !needTopPFiltering topP then
    if !needTopKFiltering topK then return (logits, none)
    else applyTopKOnlyFn logits topK
  else
    let numTokens := logits.length
    let chunkSize := chunkSize.getD numTokens
    if chunkSize = 0 then throw .zeroStep
    let chunks ← (List.range ((numTokens + chunkSize - 1) / chunkSize)).mapM fun c ↦
      (slice logits (c * chunkSize) (min (c * chunkSize + chunkSize) numTokens)).mapM
        (filterRow sort weight topK topP)
    return (chunks.flatten.map Prod.fst, some (chunks.flatten.map Prod.snd))

/-- `apply_top_k_top_p`, with the mask that the forward pass saves. -/
def applyTopKTopP (logits : List (Row L V)) (topK : Option ℤ) (topP : K)
    (chunkSize : Option ℕ) : Except FilterError (List (Row L V) × Option (List (Mask V))) :=
  if !needTopKFiltering topK && !needTopPFiltering topP then .ok (logits, none)
  else applyTopKTopPFn sort weight logits topK topP chunkSize

def backward {G : Type} [Zero G] (keepMask : Option (List (Mask V)))
    (gradFilteredLogits : List (Fin V → G)) : List (Fin V → G) :=
  keepMask.elim gradFilteredLogits fun masks ↦
    List.zipWith (fun keep grad j ↦ if keep j then grad j else 0) masks gradFilteredLogits

end Filter

section Scatter

variable {α : Type} {V : ℕ}

theorem scatter_perm (dst src : Fin V → α) (e : Equiv.Perm (Fin V)) :
    scatter dst e src = fun i ↦ src (e.symm i) := by
  have hwrites : ∀ (l : List (Fin V)) (t : Fin V → α) (i : Fin V),
      l.foldl (fun t j ↦ Function.update t (e j) (src j)) t i =
        if e.symm i ∈ l then src (e.symm i) else t i := by
    intro l
    induction l with
    | nil => simp
    | cons j l ih =>
      intro t i
      rw [List.foldl_cons, ih]
      by_cases hmem : e.symm i ∈ l
      · rw [if_pos hmem, if_pos (List.mem_cons_of_mem j hmem)]
      · rw [if_neg hmem]
        by_cases hij : e.symm i = j
        · rw [← hij, e.apply_symm_apply, Function.update_self, if_pos List.mem_cons_self]
        · have hne : i ≠ e j := fun h ↦ hij (by rw [h, e.symm_apply_apply])
          rw [Function.update_of_ne hne, if_neg (by simp [hij, hmem])]
  funext i
  rw [scatter, hwrites, if_pos (List.mem_finRange _)]

end Scatter

end NemoRL.Algorithms.LogitsSampling
