import Mathlib

namespace NemoRL.Foundations.Doubles

/-- The distance of two neighbouring doubles about a number. -/
def spacing (q : ℚ) : ℚ := 2 ^ (Int.log 2 |q| - 52)

/-- The double nearest to a number, the even one of two as near, with unbounded exponents. -/
def toDouble (q : ℚ) : ℚ :=
  let significand := ⌊q / spacing q⌋
  let rest := q / spacing q - significand
  (if 1 / 2 < rest ∨ rest = 1 / 2 ∧ significand % 2 = 1 then significand + 1 else significand) *
    spacing q

theorem spacing_pos (q : ℚ) : 0 < spacing q := zpow_pos two_pos _

theorem one_le_div_spacing {q : ℚ} (h : 0 < q) : 1 ≤ q / spacing q := by
  rw [one_le_div (spacing_pos q)]
  calc spacing q ≤ 2 ^ Int.log 2 |q| := zpow_le_zpow_right₀ one_le_two (by omega)
    _ ≤ |q| := Int.zpow_log_le_self Nat.one_lt_two (abs_pos.mpr h.ne')
    _ = q := abs_of_pos h

theorem toDouble_pos {q : ℚ} (h : 0 < q) : 0 < toDouble q := by
  have hone : 1 ≤ ⌊q / spacing q⌋ := by
    refine Int.le_floor.mpr ?_
    rw [Int.cast_one]
    exact one_le_div_spacing h
  refine mul_pos ?_ (spacing_pos q)
  split_ifs
  · exact_mod_cast hone.trans (Int.le_add_one le_rfl)
  · exact_mod_cast hone

/-- Nine tenths are a little more as a double, and ten times that is nine again. -/
example : toDouble (10 * toDouble (9 / 10)) = 9 ∧ 9 < 10 * toDouble (9 / 10) := by
  decide +kernel

end NemoRL.Foundations.Doubles
