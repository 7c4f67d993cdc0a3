import Mathlib
import NemoRL.Foundations.Blocks
import NemoRL.Foundations.Combinations

namespace NemoRL.Evals

open Foundations.Blocks Foundations.Combinations

inductive EvalError
  | assertion (message : String)
  | notInList
  | valueError (message : String)
  deriving DecidableEq

section Tensors

variable {α : Type}

def split (size : ℕ) (l : List α) : List (List α) :=
  (List.range (max ((l.length + size - 1) / size) 1)).map (block size l)

def slices (size : ℕ) (l : List α) : List (List α) :=
  (List.range ((l.length + size - 1) / size)).map (block size l)

def arange (start stop : ℚ) : List ℚ := (List.range ⌈stop - start⌉₊).map fun j : ℕ ↦ start + j

end Tensors

def evalSingleChunk (n : ℕ) (c : ℚ) (k : ℕ) : ℚ :=
  if n - c < k then 1
  else 1 - ((arange (n - c + 1) (n + 1)).map fun x : ℚ ↦ 1 - k / x).prod

def evalPassK (rewards : List ℚ) (numTestsPerPrompt k : ℕ) : ℚ :=
  (split numTestsPerPrompt rewards).foldl
    (fun passKScore groupReward ↦
      passKScore + evalSingleChunk numTestsPerPrompt groupReward.sum k) 0

/-- The items of `Counter(answers)`, in the order of the first of each. -/
def counter (answers : List (Option String)) : List (Option String × ℕ) :=
  answers.eraseDups.map fun a ↦ (a, answers.count a)

def majorityVote (answers : List (Option String)) : Option String :=
  ((counter answers).argmax Prod.snd).elim none Prod.fst

/-- The body of the loop over the subsets, with the counts of all and of the correct ones. -/
def voteStep (chunkRewards : List ℚ) (chunkAnswers : List (Option String)) (counts : ℕ × ℕ)
    (subsetIndices : List ℕ) : Except EvalError (ℕ × ℕ) := do
  let subsetAnswers := subsetIndices.map (chunkAnswers.getD · none)
  let majorityAnswer := majorityVote subsetAnswers
  let rewardIdx ← (chunkAnswers.idxOf? majorityAnswer).elim (.error .notInList) .ok
  let reward := chunkRewards.getD rewardIdx 0
  return (counts.1 + 1, if reward = 1 then counts.2 + 1 else counts.2)

def evalSingleConsK (chunkRewards : List ℚ) (chunkAnswers : List (Option String)) (n k : ℕ) :
    Except EvalError ℚ := do
  if n = 0 ∨ n < k then return 0
  let counts ← (combinations k (List.range n)).foldlM (voteStep chunkRewards chunkAnswers) (0, 0)
  return counts.2 / counts.1

def consensusStep (k : ℕ) (consKScore : ℚ) (chunk : List ℚ × List (Option String)) :
    Except EvalError ℚ := do
  if chunk.1.length ≠ chunk.2.length then
    throw (.assertion "The number of rewards and extracted answers must be the same")
  let score ← evalSingleConsK chunk.1 chunk.2 chunk.2.length k
  return consKScore + score

def evalConsK (rewards : List ℚ) (numTestsPerPrompt k : ℕ)
    (extractedAnswers : List (Option String)) : Except EvalError ℚ := do
  if extractedAnswers.length ≠ rewards.length then
    throw (.assertion "The number of extracted answers must be the same as the number of rewards")
  let groupRewards := split numTestsPerPrompt rewards
  let groupExtractedAnswers := slices numTestsPerPrompt extractedAnswers
  if groupRewards.length ≠ groupExtractedAnswers.length then
    throw (.assertion "The number of rewards and extracted answers must be the same")
  (groupRewards.zip groupExtractedAnswers).foldlM (consensusStep k) 0

/-- What the environment returns for a batch of the dataloader. -/
structure EnvReturn where
  rewards : List ℚ
  answers : List (Option String)

def scoreStep (metric : String) (numTestsPerPrompt k : ℕ) (score : ℚ) (envReturn : EnvReturn) :
    Except EvalError ℚ := do
  if metric = "pass@k" then return score + evalPassK envReturn.rewards numTestsPerPrompt k
  else if metric = "cons@k" then
    let s ← evalConsK envReturn.rewards numTestsPerPrompt k envReturn.answers
    return score + s
  else throw (.valueError ("Invalid metric: " ++ metric))

/-- The score of `_run_env_eval_impl` over the batches of the dataloader. -/
def runEnvEval (metric : String) (numTestsPerPrompt k : ℕ) (batches : List EnvReturn) :
    Except EvalError ℚ :=
  batches.foldlM (scoreStep metric numTestsPerPrompt k) 0

section Telescopes

theorem prod_telescope {m k : ℕ} (h : k ≤ m) (c : ℕ) :
    ((List.range c).map fun j : ℕ ↦ 1 - (k : ℚ) / (m + 1 + j)).prod =
      (m.choose k : ℚ) / ((m + c).choose k : ℚ) := by
  induction c with
  | zero =>
    have hne : (m.choose k : ℚ) ≠ 0 := Nat.cast_ne_zero.mpr (Nat.choose_pos h).ne'
    rw [List.range_zero, List.map_nil, List.prod_nil, Nat.add_zero, div_self hne]
  | succ c ih =>
    have hne : ((m + c).choose k : ℚ) ≠ 0 :=
      Nat.cast_ne_zero.mpr (Nat.choose_pos (h.trans (Nat.le_add_right m c))).ne'
    have hne' : ((m + c + 1).choose k : ℚ) ≠ 0 :=
      Nat.cast_ne_zero.mpr (Nat.choose_pos (h.trans (by omega))).ne'
    have hpos : (m : ℚ) + 1 + c ≠ 0 := by positivity
    have hchoose : ((m + c).choose k : ℚ) * (m + c + 1) =
        ((m + c + 1).choose k : ℚ) * (m + c + 1 - k) := by
      have hnat := Nat.choose_mul_succ_eq (m + c) k
      have hcast : ((m + c + 1 - k : ℕ) : ℚ) = m + c + 1 - k := by
        rw [Nat.cast_sub (by omega)]
        push_cast
        ring
      rw [← hcast]
      exact_mod_cast hnat
    rw [List.range_succ, List.map_append, List.prod_append, ih, List.map_singleton,
      List.prod_singleton, ← Nat.add_assoc]
    field_simp
    linear_combination -(m.choose k : ℚ) * hchoose

theorem arange_eq {n c : ℕ} (h : c ≤ n) :
    arange (n - c + 1) (n + 1) = (List.range c).map fun j : ℕ ↦ ((n - c : ℕ) : ℚ) + 1 + j := by
  have hlen : (n : ℚ) + 1 - (n - c + 1) = c := by ring
  rw [arange, hlen, Nat.ceil_natCast, Nat.cast_sub h]

theorem evalSingleChunk_eq {n c : ℕ} (hc : c ≤ n) (k : ℕ) :
    evalSingleChunk n c k = 1 - ((n - c).choose k : ℚ) / (n.choose k : ℚ) := by
  have hsub : (n : ℚ) - c = ((n - c : ℕ) : ℚ) := by rw [Nat.cast_sub hc]
  rw [evalSingleChunk, hsub]
  by_cases hlt : n - c < k
  · rw [if_pos (Nat.cast_lt.mpr hlt), Nat.choose_eq_zero_of_lt hlt, Nat.cast_zero, zero_div,
      sub_zero]
  · rw [if_neg (fun h ↦ hlt (Nat.cast_lt.mp h)), ← hsub, arange_eq hc, List.map_map]
    have htelescope := prod_telescope (Nat.le_of_not_lt hlt) c
    rw [Nat.sub_add_cancel hc] at htelescope
    rw [← htelescope]
    rfl

end Telescopes

end NemoRL.Evals
