import Mathlib.Algebra.Order.BigOperators.Ring.Finset
import Mathlib.Algebra.Polynomial.BigOperators
import Mathlib.Algebra.Polynomial.Eval.Degree
import Mathlib.LinearAlgebra.Lagrange
import Mathlib.Tactic.LinearCombination
import Mathlib.Tactic.Linarith

/-!
# Least-squares fits by polynomials

A polynomial of degree at most `d` is a least-squares fit of values given at nodes when no
other such polynomial has a smaller sum of squared errors.  If the errors of a polynomial are
orthogonal to the polynomials of degree at most `d`, it is a fit, and every fit agrees with
it at the nodes.

A reproducing kernel gives for each node a polynomial of degree at most `d` such that summing
its products with any other such polynomial over the nodes evaluates the latter at the node.
It shows that a fit exists, and computes the fit at a node as a weighted sum of the values
(`IsReproducing.eval_fit`).  Where there are more nodes than the degree, there is only one fit
(`IsReproducing.eq_fit`).
-/

open Polynomial

universe u v

variable {K : Type u} [Field K] [LinearOrder K] {ι : Type v}

/-- The sum of the squared errors of `p` at the nodes `x i` with the values `y i`. -/
def sumSquares (s : Finset ι) (x y : ι → K) (p : K[X]) : K :=
  ∑ i ∈ s, (p.eval (x i) - y i) ^ 2

/-- The polynomial `p` minimises the sum of the squared errors among the polynomials of degree
at most `d`. -/
structure IsLeastSquaresFit (s : Finset ι) (x y : ι → K) (d : ℕ) (p : K[X]) : Prop where
  natDegree_le : p.natDegree ≤ d
  minimal : ∀ q : K[X], q.natDegree ≤ d → sumSquares s x y p ≤ sumSquares s x y q

/-- A least-squares fit, if there is one. -/
noncomputable def leastSquaresFit (s : Finset ι) (x y : ι → K) (d : ℕ) : K[X] :=
  Classical.epsilon (IsLeastSquaresFit s x y d)

/-- The errors of `p` are orthogonal to the polynomials of degree at most `d`. -/
def IsOrthogonal (s : Finset ι) (x y : ι → K) (d : ℕ) (p : K[X]) : Prop :=
  ∀ q : K[X], q.natDegree ≤ d → ∑ i ∈ s, q.eval (x i) * (p.eval (x i) - y i) = 0

/-- The polynomials `k i` reproduce the polynomials of degree at most `d` at the nodes. -/
structure IsReproducing (s : Finset ι) (x : ι → K) (d : ℕ) (k : ι → K[X]) : Prop where
  natDegree_le : ∀ i, (k i).natDegree ≤ d
  reproduces : ∀ q : K[X], q.natDegree ≤ d → ∀ i ∈ s,
    ∑ j ∈ s, q.eval (x j) * (k i).eval (x j) = q.eval (x i)

variable {s : Finset ι} {x y : ι → K} {d : ℕ} {p q : K[X]} {k : ι → K[X]}

omit [LinearOrder K] in
/-- The squared errors of `q` are those of a polynomial with orthogonal errors, and the squared
differences between the two. -/
theorem IsOrthogonal.sumSquares_eq (h : IsOrthogonal s x y d p) (hp : p.natDegree ≤ d)
    (hq : q.natDegree ≤ d) :
  sumSquares s x y q
    = sumSquares s x y p + ∑ i ∈ s, (q.eval (x i) - p.eval (x i)) ^ 2
  := by
  have hzero := h (q - p) ((natDegree_sub_le q p).trans (max_le hq hp))
  have hexpand : sumSquares s x y q
      = sumSquares s x y p + ∑ i ∈ s, (q.eval (x i) - p.eval (x i)) ^ 2
        + 2 * ∑ i ∈ s, (q - p).eval (x i) * (p.eval (x i) - y i) := by
    rw [sumSquares, sumSquares, Finset.mul_sum, ← Finset.sum_add_distrib,
      ← Finset.sum_add_distrib]
    apply Finset.sum_congr rfl
    intro i _
    rw [eval_sub]
    ring
  rw [hexpand, hzero, mul_zero, add_zero]

section Ordered

variable [IsStrictOrderedRing K]

/-- A polynomial with orthogonal errors is a least-squares fit. -/
theorem IsOrthogonal.isLeastSquaresFit (h : IsOrthogonal s x y d p) (hp : p.natDegree ≤ d) :
  IsLeastSquaresFit s x y d p
  := by
  use hp
  intro q hq
  rw [h.sumSquares_eq hp hq]
  have hnonneg : 0 ≤ ∑ i ∈ s, (q.eval (x i) - p.eval (x i)) ^ 2 :=
    Finset.sum_nonneg (fun i _ => sq_nonneg _)
  linarith

/-- A least-squares fit agrees at the nodes with a polynomial with orthogonal errors. -/
theorem IsLeastSquaresFit.eval_eq (hq : IsLeastSquaresFit s x y d q)
    (h : IsOrthogonal s x y d p) (hp : p.natDegree ≤ d) {i : ι} (hi : i ∈ s) :
  q.eval (x i) = p.eval (x i)
  := by
  have hle := hq.minimal p hp
  rw [h.sumSquares_eq hp hq.natDegree_le] at hle
  have hnonneg : ∀ j ∈ s, 0 ≤ (q.eval (x j) - p.eval (x j)) ^ 2 := fun j _ => sq_nonneg _
  have hzero : ∑ j ∈ s, (q.eval (x j) - p.eval (x j)) ^ 2 = 0 := by
    apply le_antisymm _ (Finset.sum_nonneg hnonneg)
    linarith
  have hsq := (Finset.sum_eq_zero_iff_of_nonneg hnonneg).mp hzero i hi
  apply sub_eq_zero.mp (pow_eq_zero_iff (two_ne_zero)|>.mp hsq)

/-- A polynomial with the given values is a least-squares fit. -/
theorem isLeastSquaresFit_of_eval_eq (hp : p.natDegree ≤ d) (h : ∀ i ∈ s, p.eval (x i) = y i) :
  IsLeastSquaresFit s x y d p
  := by
  use hp
  intro q _
  have hzero : sumSquares s x y p = 0 := by
    apply Finset.sum_eq_zero
    intro i hi
    rw [h i hi, sub_self, zero_pow two_ne_zero]
  rw [hzero]
  apply Finset.sum_nonneg (fun i _ => sq_nonneg _)

end Ordered

omit [LinearOrder K] in
/-- The sum of the polynomials of a reproducing kernel, weighted with the values, has
orthogonal errors. -/
theorem IsReproducing.isOrthogonal (h : IsReproducing s x d k) (y : ι → K) :
  IsOrthogonal s x y d (∑ i ∈ s, C (y i) * k i)
  := by
  intro q hq
  have hsum : ∑ j ∈ s, q.eval (x j) * (∑ i ∈ s, C (y i) * k i).eval (x j)
      = ∑ i ∈ s, q.eval (x i) * y i := by
    simp only [eval_finsetSum, eval_mul, eval_C, Finset.mul_sum]
    rw [Finset.sum_comm]
    apply Finset.sum_congr rfl
    intro i hi
    rw [← h.reproduces q hq i hi, Finset.sum_mul]
    apply Finset.sum_congr rfl
    intro j _
    ring
  simp only [mul_sub, Finset.sum_sub_distrib]
  rw [hsum, sub_self]

omit [LinearOrder K] in
theorem IsReproducing.natDegree_sum_le (h : IsReproducing s x d k) (y : ι → K) :
  (∑ i ∈ s, C (y i) * k i).natDegree ≤ d
  := by
  apply natDegree_sum_le_of_forall_le
  intro i _
  apply (natDegree_C_mul_le _ _).trans (h.natDegree_le i)

variable [IsStrictOrderedRing K]

/-- Where there is a reproducing kernel, there is a least-squares fit. -/
theorem IsReproducing.isLeastSquaresFit (h : IsReproducing s x d k) (y : ι → K) :
  IsLeastSquaresFit s x y d (leastSquaresFit s x y d)
  := by
  apply Classical.epsilon_spec (p := IsLeastSquaresFit s x y d)
  use ∑ i ∈ s, C (y i) * k i
  apply (h.isOrthogonal y).isLeastSquaresFit (h.natDegree_sum_le y)

/-- A least-squares fit at a node is the sum of the values, weighted with the polynomials of a
reproducing kernel at the node. -/
theorem IsReproducing.eval_fit (h : IsReproducing s x d k) (hp : IsLeastSquaresFit s x y d p)
    {i : ι} (hi : i ∈ s) :
  p.eval (x i) = ∑ j ∈ s, y j * (k j).eval (x i)
  := by
  rw [hp.eval_eq (h.isOrthogonal y) (h.natDegree_sum_le y) hi, eval_finsetSum]
  apply Finset.sum_congr rfl
  intro j _
  rw [eval_mul, eval_C]

/-- Where there is a reproducing kernel, and there are more nodes than the degree, there is only
one least-squares fit. -/
theorem IsReproducing.eq_fit (h : IsReproducing s x d k) (hx : Set.InjOn x s) (hd : d < s.card)
    (hp : IsLeastSquaresFit s x y d p) (hq : IsLeastSquaresFit s x y d q) :
  p = q
  := by
  have hcard : (d : WithBot ℕ) < s.card := by exact_mod_cast hd
  have hdegree : ∀ r : K[X], r.natDegree ≤ d → r.degree < s.card := by
    intro r hr
    apply lt_of_le_of_lt (natDegree_le_iff_degree_le.mp hr) hcard
  apply eq_of_degrees_lt_of_eval_index_eq s hx (hdegree p hp.natDegree_le)
    (hdegree q hq.natDegree_le)
  intro i hi
  rw [h.eval_fit hp hi, h.eval_fit hq hi]
