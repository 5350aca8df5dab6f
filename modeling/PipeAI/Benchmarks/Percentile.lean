import PipeAI.Numeric.Quantiles
import Mathlib.Algebra.Order.Floor.Semiring
import Mathlib.Data.Rat.Floor

/-!
# The percentiles of the latencies

Two benchmarks report percentiles of latencies, each with a function of its own: they sort the
latencies and give the one at the share `p` of their number, rounded down, and the last one where
there is none at this place.  What they give is a quantile (`percentile_isQuantile`).

The arithmetic is exact.
-/

universe u

namespace Benchmarks

variable {K : Type u} [Field K] [LinearOrder K] [FloorSemiring K]

/-! ### The code -/

/-- The index `(size_t)(p * n)` into `n` values, or the last one if it is too large. -/
def percentileIndex (p : K) (n : ℕ) : ℕ :=
  let index := ⌊p * n⌋₊
  if index ≥ n then n - 1 else index

/-- `percentile` of `latency_report.hpp`. -/
def LatencyReport.percentile (values : List K) (p : K) : K :=
  if values.isEmpty then 0
  else
    let values := values.mergeSort (fun a b => a ≤ b)
    values.getD (percentileIndex p values.length) 0

/-- `percentile` of `p99_latency.cpp`. -/
def P99Latency.percentile (v : List K) (p : K) : K :=
  if v.isEmpty then 0
  else
    let v := v.mergeSort (fun a b => a ≤ b)
    v.getD (percentileIndex p v.length) 0

/-! ### Quantiles -/

/-- The index is in the range of the values. -/
theorem percentileIndex_lt (p : K) {n : ℕ} (hn : 0 < n) :
  percentileIndex p n < n
  := by
  rw [percentileIndex]
  split <;> omega

/-- The two benchmarks report the same. -/
theorem percentile_eq (values : List K) (p : K) :
  P99Latency.percentile values p = LatencyReport.percentile values p
  := rfl

/-- The percentile is the entry at the index of the sorted values. -/
theorem percentile_eq_orderStat {values : List K} (hne : values ≠ []) (p : K) :
  LatencyReport.percentile values p
    = orderStat values (percentileIndex p values.length)
      (percentileIndex_lt p (List.length_pos_iff.mpr hne))
  := by
  have hlt := percentileIndex_lt p (List.length_pos_iff.mpr hne)
  have hempty : ¬ values.isEmpty = true := by simpa using hne
  rw [LatencyReport.percentile, if_neg hempty, orderStat]
  simp only [List.length_mergeSort]
  rw [List.getD_eq_getElem?_getD, List.getElem?_eq_getElem (by rwa [List.length_mergeSort]),
    Option.getD_some, List.get_eq_getElem]

variable [IsStrictOrderedRing K]

/-- The index of a larger share is not smaller. -/
theorem percentileIndex_mono {p q : K} (h : p ≤ q) (n : ℕ) :
  percentileIndex p n ≤ percentileIndex q n
  := by
  have hfloor : ⌊p * n⌋₊ ≤ ⌊q * n⌋₊ := by
    apply Nat.floor_mono
    apply mul_le_mul_of_nonneg_right h n.cast_nonneg
  rw [percentileIndex, percentileIndex]
  split <;> split <;> omega

/-- The share lies between the index and the next one. -/
theorem percentileIndex_bounds {p : K} (hp : 0 ≤ p) (hp1 : p ≤ 1) {n : ℕ} (hn : 0 < n) :
  (percentileIndex p n : K) ≤ p * n ∧ p * n ≤ (percentileIndex p n : K) + 1
  := by
  have hfloor := Nat.floor_le (mul_nonneg hp n.cast_nonneg)
  rw [percentileIndex]
  split
  · rename_i hle
    have hsucc : ((n - 1 : ℕ) : K) + 1 = n := by
      rw [← Nat.cast_succ, Nat.sub_one, Nat.succ_pred_eq_of_pos hn]
    constructor
    · apply le_trans _ hfloor
      rw [Nat.cast_le]
      omega
    · rw [hsucc]
      apply mul_le_of_le_one_left n.cast_nonneg hp1
  · constructor
    · apply hfloor
    · apply (Nat.lt_floor_add_one _).le

/-- Both functions give the same value, which is a quantile of the values at `p`; it does not depend
on the order of the values and does not fall when `p` grows; and the index is in the range. -/
theorem percentile_isQuantile {values : List K} (hne : values ≠ []) {p : K} (hp : 0 ≤ p)
    (hp1 : p ≤ 1) :
  P99Latency.percentile values p = LatencyReport.percentile values p
    ∧ IsQuantile p values (LatencyReport.percentile values p)
    ∧ (∀ values', values'.Perm values →
      LatencyReport.percentile values' p = LatencyReport.percentile values p)
    ∧ (∀ q, p ≤ q → q ≤ 1 → LatencyReport.percentile values p ≤ LatencyReport.percentile values q)
    ∧ percentileIndex p values.length < values.length
  := by
  have hn := List.length_pos_iff.mpr hne
  have hlt := percentileIndex_lt p hn
  have hv := percentile_eq_orderStat hne p
  refine ⟨percentile_eq values p, ?_, ?_, ?_, hlt⟩
  · rw [hv]
    obtain ⟨hbefore, hupto⟩ := percentileIndex_bounds hp hp1 hn
    apply isQuantile_orderStat hlt hbefore hupto
  · intro values' hperm
    have hne' : values' ≠ [] := by
      rintro rfl
      apply hne hperm.nil_eq.symm
    rw [percentile_eq_orderStat hne' p, hv]
    simp only [hperm.length_eq]
    apply orderStat_congr hperm
  · intro q hpq _
    rw [percentile_eq_orderStat hne q, hv]
    apply orderStat_mono values (percentileIndex_mono hpq _)

/-- The median of 3, 1, 2 and 2 is 2, and the largest of them is not smaller. -/
theorem percentile_isQuantile_half :
  P99Latency.percentile [3, 1, 2, 2] (1 / 2 : ℚ) = LatencyReport.percentile [3, 1, 2, 2] (1 / 2)
    ∧ IsQuantile (1 / 2 : ℚ) [3, 1, 2, 2] (LatencyReport.percentile [3, 1, 2, 2] (1 / 2 : ℚ))
    ∧ LatencyReport.percentile [1, 2, 2, 3] (1 / 2 : ℚ)
      = LatencyReport.percentile [3, 1, 2, 2] (1 / 2)
    ∧ LatencyReport.percentile [3, 1, 2, 2] (1 / 2 : ℚ) ≤ LatencyReport.percentile [3, 1, 2, 2] 1
    ∧ percentileIndex (1 / 2 : ℚ) 4 < 4
  := by
  have hne : ([3, 1, 2, 2] : List ℚ) ≠ [] := by simp
  obtain ⟨hsame, hquantile, hperm, hmono, hindex⟩ :=
    percentile_isQuantile hne (p := 1 / 2) (by norm_num) (by norm_num)
  exact ⟨hsame, hquantile, hperm _ (by decide), hmono 1 (by norm_num) le_rfl, hindex⟩

end Benchmarks
