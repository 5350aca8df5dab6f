import Mathlib.Algebra.BigOperators.Field
import Mathlib.Algebra.Order.BigOperators.Group.Finset
import Mathlib.Algebra.Order.Field.Basic
import Mathlib.Data.Fintype.Card
import Mathlib.Tactic.Positivity

/-!
# Shares of positive weights

The share of an index is its weight divided by the sum of all weights.  The shares of positive
weights are positive, sum up to 1 and are in the order of the weights; the largest one is at least
the share of equal weights (`inv_card_le_share`).

When something positive is added to the sum of the weights, then the shares sum up to less than 1.
A sum of values that are weighted by such shares stays below the bound of the values
(`abs_sum_mul_lt`).
-/

universe u v

variable {ι : Type u} [Fintype ι] {K : Type v} [Field K]

/-- The share of `i`. -/
def share (w : ι → K) (i : ι) : K :=
  w i / ∑ j, w j

variable [LinearOrder K] [IsStrictOrderedRing K]

section Positive

variable {w : ι → K} (hw : ∀ i, 0 < w i)

include hw

/-- The sum of positive weights is positive. -/
theorem sum_weights_pos [Nonempty ι] :
  0 < ∑ j, w j
  := Finset.sum_pos (fun i _ => hw i) Finset.univ_nonempty

theorem share_pos (i : ι) :
  0 < share w i
  := by
  have : Nonempty ι := ⟨i⟩
  apply div_pos (hw i) (sum_weights_pos hw)

/-- The shares sum up to 1. -/
theorem sum_share [Nonempty ι] :
  ∑ i, share w i = 1
  := by
  simp only [share]
  rw [← Finset.sum_div, div_self (sum_weights_pos hw).ne']

/-- The shares are in the order of the weights. -/
theorem share_lt_share_iff {i j : ι} :
  share w i < share w j ↔ w i < w j
  := by
  have : Nonempty ι := ⟨i⟩
  apply div_lt_div_iff_of_pos_right (sum_weights_pos hw)

/-- A largest share is at least that of equal weights. -/
theorem inv_card_le_share {i : ι} (hi : ∀ j, share w j ≤ share w i) :
  1 / (Fintype.card ι : K) ≤ share w i
  := by
  have : Nonempty ι := ⟨i⟩
  have hcard : (0 : K) < Fintype.card ι := by
    rw [Nat.cast_pos]
    apply Fintype.card_pos
  rw [div_le_iff₀ hcard]
  calc
    1 = ∑ j, share w j := (sum_share hw).symm
    _ ≤ ∑ _j : ι, share w i := Finset.sum_le_sum (fun j _ => hi j)
    _ = share w i * Fintype.card ι := by
      rw [Finset.sum_const, Finset.card_univ, nsmul_eq_mul, mul_comm]

end Positive

/-! ### Weighted sums -/

/-- The shares of weights in more than their sum sum up to less than 1. -/
theorem sum_div_add_lt_one {w : ι → K} (hw : ∀ i, 0 ≤ w i) {ε : K} (hε : 0 < ε) :
  ∑ i, w i / (∑ j, w j + ε) < 1
  := by
  have hsum : 0 ≤ ∑ j, w j := Finset.sum_nonneg (fun j _ => hw j)
  rw [← Finset.sum_div, div_lt_one (add_pos_of_nonneg_of_pos hsum hε)]
  apply lt_add_of_pos_right _ hε

/-- The mean of bounded values is bounded. -/
theorem abs_sum_div_card_le [Nonempty ι] {f : ι → K} {M : K} (hf : ∀ i, |f i| ≤ M) :
  |(∑ i, f i) / Fintype.card ι| ≤ M
  := by
  have hcard : (0 : K) < Fintype.card ι := by
    rw [Nat.cast_pos]
    apply Fintype.card_pos
  rw [abs_div, abs_of_pos hcard, div_le_iff₀ hcard]
  calc
    |∑ i, f i| ≤ ∑ i, |f i| := Finset.abs_sum_le_sum_abs f Finset.univ
    _ ≤ ∑ _i : ι, M := Finset.sum_le_sum (fun i _ => hf i)
    _ = M * Fintype.card ι := by
      rw [Finset.sum_const, Finset.card_univ, nsmul_eq_mul, mul_comm]

/-- A sum of bounded values, with weights that sum up to less than 1, is below the bound. -/
theorem abs_sum_mul_lt {f b : ι → K} {M : K} (hM : 0 < M) (hf : ∀ i, |f i| ≤ M)
    (hb : ∀ i, 0 ≤ b i) (hsum : ∑ i, b i < 1) :
  |∑ i, f i * b i| < M
  := by
  calc
    |∑ i, f i * b i| ≤ ∑ i, |f i * b i| := Finset.abs_sum_le_sum_abs _ Finset.univ
    _ ≤ ∑ i, M * b i := by
      apply Finset.sum_le_sum
      intro i _
      rw [abs_mul, abs_of_nonneg (hb i)]
      apply mul_le_mul_of_nonneg_right (hf i) (hb i)
    _ = M * ∑ i, b i := (Finset.mul_sum Finset.univ b M).symm
    _ < M := mul_lt_of_lt_one_right hM hsum
