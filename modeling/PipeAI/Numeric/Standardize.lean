import Mathlib.Algebra.Order.BigOperators.Expect
import Mathlib.Analysis.Real.Sqrt
import Mathlib.Tactic.Positivity

/-!
# Standardized values

Finitely many real numbers are standardized by subtracting their mean, and dividing by a scale.
Their mean is then zero, and their mean square is the square of the ratio of their standard
deviation to the scale: it is at most one when the scale is the maximum of the standard deviation
and a positive floor, and it is one when the standard deviation is not below the floor.
-/

open scoped BigOperators

universe u

variable {ι : Type u} [Fintype ι]

/-- The standard deviation of finitely many numbers, which are the whole population. -/
noncomputable def standardDeviation (f : ι → ℝ) : ℝ :=
  √(𝔼 i, (f i - 𝔼 j, f j) ^ 2)

/-- The standardized numbers. -/
noncomputable def standardize (f : ι → ℝ) (scale : ℝ) (i : ι) : ℝ :=
  (f i - 𝔼 j, f j) / scale

/-- The mean of standardized numbers is zero. -/
theorem expect_standardize [Nonempty ι] (f : ι → ℝ) (scale : ℝ) :
  𝔼 i, standardize f scale i = 0
  := by
  have hmean : 𝔼 i, (f i - 𝔼 j, f j) = 0 := by
    rw [Finset.expect_sub_distrib, Fintype.expect_const, sub_self]
  simp only [standardize]
  rw [← Finset.expect_div, hmean, zero_div]

/-- The mean square of standardized numbers is the square of a ratio. -/
theorem expect_standardize_sq (f : ι → ℝ) (scale : ℝ) :
  𝔼 i, standardize f scale i ^ 2 = (standardDeviation f / scale) ^ 2
  := by
  have hnonneg : 0 ≤ 𝔼 i, (f i - 𝔼 j, f j) ^ 2 := by
    apply Finset.expect_nonneg
    intro i _
    positivity
  simp only [standardize, div_pow]
  rw [← Finset.expect_div, standardDeviation, Real.sq_sqrt hnonneg]

/-- The mean square is at most one, when the scale is at least the standard deviation. -/
theorem expect_standardize_sq_le_one (f : ι → ℝ) {floor : ℝ} (hfloor : 0 < floor) :
  𝔼 i, standardize f (max (standardDeviation f) floor) i ^ 2 ≤ 1
  := by
  have hscale : 0 < max (standardDeviation f) floor := lt_max_of_lt_right hfloor
  rw [expect_standardize_sq]
  apply pow_le_one₀
  · apply div_nonneg (Real.sqrt_nonneg _) hscale.le
  · rw [div_le_one hscale]
    apply le_max_left

/-- The mean square is one, when the standard deviation is not below the floor. -/
theorem expect_standardize_sq_eq_one (f : ι → ℝ) {floor : ℝ} (hfloor : 0 < floor)
    (h : floor ≤ standardDeviation f) :
  𝔼 i, standardize f (max (standardDeviation f) floor) i ^ 2 = 1
  := by
  have hpos : standardDeviation f ≠ 0 := (hfloor.trans_le h).ne'
  rw [expect_standardize_sq, max_eq_left h, div_self hpos, one_pow]
