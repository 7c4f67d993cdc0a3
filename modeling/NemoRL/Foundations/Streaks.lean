import Mathlib

/-! How many bad entries a log ends with. -/

namespace NemoRL.Foundations.Streaks

variable {α : Type*}

/-- The entries of a log after the last one that meets the test. -/
def since (good : α → Bool) (log : List α) : List α :=
  (log.reverse.takeWhile fun a ↦ !good a).reverse

def streak (bad good : α → Bool) (log : List α) : ℕ := (since good log).countP bad

variable {bad good : α → Bool}

theorem streak_of_good {a : α} (h : good a = true) (log : List α) :
    streak bad good (log ++ [a]) = 0 := by
  simp [streak, since, h]

theorem streak_of_not_good {a : α} (h : good a = false) (log : List α) :
    streak bad good (log ++ [a]) = streak bad good log + if bad a then 1 else 0 := by
  have hkept : since good (log ++ [a]) = since good log ++ [a] := by
    simp [since, h]
  rw [streak, hkept, List.countP_append, List.countP_singleton]
  rfl

theorem streak_of_neither {a : α} (h : good a = false) (h' : bad a = false) (log : List α) :
    streak bad good (log ++ [a]) = streak bad good log := by
  rw [streak_of_not_good h, h']
  rfl

theorem streak_of_bad {a : α} (h : good a = false) (h' : bad a = true) (log : List α) :
    streak bad good (log ++ [a]) = streak bad good log + 1 := by
  rw [streak_of_not_good h, h', if_pos rfl]

end NemoRL.Foundations.Streaks
