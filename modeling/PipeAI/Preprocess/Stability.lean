import PipeAI.Preprocess.Reference
import PipeAI.Preprocess.Repaired
import Mathlib.Algebra.Order.Group.MinMax

/-!
# Disturbances, lines and units

In exact arithmetic the stages of the preprocessor but the clamp are linear in the valid values.
Values that are disturbed by at most `ε` therefore disturb the tensor by at most `34/21 * ε`, which
is reached at the ends of the smoothed channel (`Preprocessor.run_stable`,
`Preprocessor.run_stable_sharp`); a channel whose valid values are on a line is reconstructed as the
line (`Preprocessor.run_line`); and the unit of length makes no difference
(`Preprocessor.run_scale`).
-/

universe u

namespace Preprocessor

variable {K : Type u} [Field K] [LinearOrder K] [IsStrictOrderedRing K]

/-! ### Smoothing -/

/-- Smoothing is linear. -/
theorem savgol_combination (a b : K) (f g : ℕ → K) {n i : ℕ} (h : i < n) :
  savgol (fun i => a * f i + b * g i) n i = a * savgol f n i + b * savgol g n i
  := by
  by_cases hn : n < 7
  · rw [savgol, savgol, savgol, if_pos hn, if_pos hn, if_pos hn]
  · have hn : 7 ≤ n := by omega
    obtain ⟨hend, hle, hlt⟩ := fitStart_le hn h
    have hrow : i = fitStart n i + (⟨i - fitStart n i, by omega⟩ : Fin 7) := by
      rw [Fin.val_mk]
      omega
    rw [savgol_eq_sum _ hn hrow, savgol_eq_sum f hn hrow, savgol_eq_sum g hn hrow,
      Finset.mul_sum, Finset.mul_sum, ← Finset.sum_add_distrib]
    apply Finset.sum_congr rfl
    intro j _
    ring

/-- Smoothing makes values at most `34/21` times as large. -/
theorem abs_savgol_le {f : ℕ → K} {n : ℕ} {ε : K} (hf : ∀ i, i < n → |f i| ≤ ε) {i : ℕ}
    (h : i < n) :
  |savgol f n i| ≤ 34 / 21 * ε
  := by
  obtain ⟨hlo, hhi⟩ := savgol_mem (fun i hi => abs_le.mp (hf i hi)) h
  rw [abs_le]
  constructor <;> linarith

/-- A line is not changed by smoothing. -/
theorem savgol_of_line {f : ℕ → K} {n : ℕ} {a b : K} (hf : ∀ i, i < n → f i = a + b * i) {i : ℕ}
    (h : i < n) :
  savgol f n i = a + b * i
  := by
  by_cases hn : n < 7
  · rw [savgol, if_pos hn, hf i h]
  · have hn : 7 ≤ n := by omega
    obtain ⟨hend, hle, hlt⟩ := fitStart_le hn h
    have hrow : i = fitStart n i + (⟨i - fitStart n i, by omega⟩ : Fin 7) := by
      rw [Fin.val_mk]
      omega
    have hi : (i : K) = fitStart n i + ((⟨i - fitStart n i, by omega⟩ : Fin 7) : ℕ) := by
      rw [← Nat.cast_add, ← hrow]
    rw [savgol_eq_sum f hn hrow, hi]
    generalize (⟨i - fitStart n i, by omega⟩ : Fin 7) = row
    have hvalue : ∀ j : Fin 7, f (fitStart n i + j) = a + b * (fitStart n i + (j : ℕ)) := by
      intro j
      rw [hf _ (by omega), Nat.cast_add]
    simp only [hvalue, Fin.sum_univ_seven, kWeights_eq, eval_quadraticKernel]
    fin_cases row <;> norm_num <;> ring

/-! ### Channels -/

/-- Two values are both missing, or both valid and at most `ε` apart. -/
def CloseRadar (ε : K) (value value' : Flt K) : Prop :=
  (missing value = true ∧ missing value' = true)
    ∨ ∃ y z, value = .fin y ∧ 0 < y ∧ value' = .fin z ∧ 0 < z ∧ |y - z| ≤ ε

/-- Two values are both not finite, or both finite and at most `ε` apart. -/
def CloseImu (ε : K) (value value' : Flt K) : Prop :=
  (value.isFinite = false ∧ value'.isFinite = false)
    ∨ ∃ y z, value = .fin y ∧ value' = .fin z ∧ |y - z| ≤ ε

/-- Two samples are at most `ε` apart, with missing values in the same places. -/
structure Close (ε : K) (sample sample' : RawSample K) : Prop where
  radar : ∀ ch, CloseRadar ε (sample.radar ch) (sample'.radar ch)
  imu : CloseImu ε sample.imu sample'.imu

/-- The valid elements of channels that are close, and their differences. -/
theorem exists_differences {ε : K} {values values' : List (Flt K)}
    (h : List.Forall₂ (CloseRadar ε) values values') :
  ∃ d, Combines 1 (-1) (validAt values) (validAt values') d
    ∧ ∀ i y, d i = some y → -ε ≤ y ∧ y ≤ ε
  := by
  use fun i => Option.map₂ (fun y z => 1 * y + -1 * z) (validAt values i) (validAt values' i)
  have hclose : ∀ i, (validAt values i = none ∧ validAt values' i = none)
      ∨ ∃ y z, validAt values i = some y ∧ validAt values' i = some z ∧ |y - z| ≤ ε := by
    intro i
    by_cases hi : i < values.length
    · have hi' : i < values'.length := h.length_eq ▸ hi
      have hget := (List.forall₂_iff_get.mp h).2 i hi hi'
      simp only [List.get_eq_getElem] at hget
      obtain ⟨hm, hm'⟩ | ⟨y, z, hy, hpos, hz, hpos', hle⟩ := hget
      · exact Or.inl ⟨(validAt_eq_none_iff hi).mpr hm, (validAt_eq_none_iff hi').mpr hm'⟩
      · right
        refine ⟨y, z, ?_, ?_, hle⟩
        · rw [validAt_eq_some_iff]
          exact ⟨by rw [List.getElem?_eq_getElem hi, hy], hpos⟩
        · rw [validAt_eq_some_iff]
          exact ⟨by rw [List.getElem?_eq_getElem hi', hz], hpos'⟩
    · left
      have hi' : ¬ i < values'.length := h.length_eq ▸ hi
      rw [validAt, validAt, List.getElem?_eq_none (by omega), List.getElem?_eq_none (by omega)]
      exact ⟨rfl, rfl⟩
  constructor
  · intro i
    obtain ⟨hv, hw⟩ | ⟨y, z, hv, hw, -⟩ := hclose i
    · left
      simp [hv, hw]
    · right
      exact ⟨y, z, hv, hw, by simp only [hv, hw, Option.map₂_some_some]⟩
  · intro i x hx
    obtain ⟨hv, hw⟩ | ⟨y, z, hv, hw, hle⟩ := hclose i
    · simp only [hv, hw, Option.map₂_none_left] at hx
      cases hx
    · simp only [hv, hw, Option.map₂_some_some] at hx
      cases hx
      rw [abs_le] at hle
      constructor <;> linarith

/-- The reference values of channels that are close. -/
theorem abs_radarReference_sub_le {ε : K} (hε : 0 ≤ ε) (sensor_min : K)
    {values values' : List (Flt K)} (h : List.Forall₂ (CloseRadar ε) values values') {i : ℕ}
    (hi : i < values.length) :
  |radarReference sensor_min values i - radarReference sensor_min values' i| ≤ 34 / 21 * ε
  := by
  obtain ⟨d, hd, hmem⟩ := exists_differences h
  have hfill : ∀ i, i < values.length → |fillGaps d values.length 0 i| ≤ ε := by
    intro i hi
    rw [abs_le]
    by_cases hsome : ∃ k, k < values.length ∧ d k ≠ none
    · apply fillGaps_mem (fun i y _ hy => hmem i y hy) hsome hi
    · push Not at hsome
      rw [fillGaps_of_none hi hsome]
      constructor <;> linarith
  have hsub : (fun i => 1 * fillGaps (validAt values) values.length sensor_min i
      + -1 * fillGaps (validAt values') values.length sensor_min i)
      = fillGaps d values.length 0 := by
    funext i
    rw [← fillGaps_of_combines hd]
    congr 1
    ring
  have hsavgol := abs_savgol_le hfill hi
  rw [← hsub, savgol_combination 1 (-1) _ _ hi] at hsavgol
  rw [radarReference, radarReference, ← h.length_eq]
  apply (abs_max_sub_max_le_abs _ _ _).trans
  rw [one_mul, neg_one_mul, ← sub_eq_add_neg] at hsavgol
  apply hsavgol

/-- The values of inertial sensors that are close. -/
theorem abs_imuAt_sub_le {ε : K} (hε : 0 ≤ ε) {values values' : List (Flt K)}
    (h : List.Forall₂ (CloseImu ε) values values') (i : ℕ) :
  |imuAt values i - imuAt values' i| ≤ ε
  := by
  rw [imuAt, imuAt]
  by_cases hi : i < values.length
  · have hi' : i < values'.length := h.length_eq ▸ hi
    have hget := (List.forall₂_iff_get.mp h).2 i hi hi'
    simp only [List.get_eq_getElem] at hget
    rw [List.getElem?_eq_getElem hi, List.getElem?_eq_getElem hi']
    obtain ⟨hfin, hfin'⟩ | ⟨y, z, hy, hz, hle⟩ := hget
    · cases hx : values[i] with
      | fin x =>
          rw [hx] at hfin
          cases hfin
      | _ =>
          cases hz : values'[i] with
          | fin z =>
              rw [hz] at hfin'
              cases hfin'
          | _ => simpa using hε
    · rw [hy, hz]
      apply hle
  · have hi' : ¬ i < values'.length := h.length_eq ▸ hi
    rw [List.getElem?_eq_none (by omega), List.getElem?_eq_none (by omega)]
    simpa using hε

/-! ### Rows -/

variable [FloorSemiring K]

omit [FloorSemiring K] in
/-- The point at which a channel is read for a row. -/
theorem row_mem (n : ℕ) (t : Fin kTargetLength) :
  0 ≤ ((t : ℕ) : K) * (n - 1 : ℕ) / (kTargetLength - 1 : ℕ)
    ∧ ((t : ℕ) : K) * (n - 1 : ℕ) / (kTargetLength - 1 : ℕ) ≤ (n - 1 : ℕ)
  := by
  obtain ⟨h₀, h₁⟩ := position_mem (K := K) t
  rw [position] at h₀ h₁
  rw [mul_div_right_comm]
  constructor
  · apply mul_nonneg h₀ (Nat.cast_nonneg _)
  · apply mul_le_of_le_one_left (Nat.cast_nonneg _) h₁

/-- Sequences that are close are close at the rows. -/
theorem abs_resampleReference_sub_le {f g : ℕ → K} {n : ℕ} {c : K} (hn : 0 < n)
    (h : ∀ i, i < n → |f i - g i| ≤ c) (t : Fin kTargetLength) :
  |resampleReference f n t - resampleReference g n t| ≤ c
  := by
  obtain ⟨h₀, h₁⟩ := row_mem (K := K) n t
  have hmem : ∀ i, i < n → -c ≤ 1 * f i + -1 * g i ∧ 1 * f i + -1 * g i ≤ c := by
    intro i hi
    rw [one_mul, neg_one_mul, ← sub_eq_add_neg]
    apply abs_le.mp (h i hi)
  have hle := piecewiseLinear_mem hmem hn h₀ h₁
  rw [piecewiseLinear_combination, one_mul, neg_one_mul, ← sub_eq_add_neg] at hle
  rw [resampleReference, resampleReference, abs_le]
  apply hle

/-- The radar channels of samples that are close. -/
theorem abs_repairAndResample_sub_le {ε : K} (hε : 0 ≤ ε) (sensor_min : K)
    {samples samples' : List (RawSample K)} (h : samples ≠ [])
    (hclose : List.Forall₂ (Close ε) samples samples') (ch : Fin kRadarChannels)
    (t : Fin kTargetLength) :
  |repairAndResample sensor_min samples ch t - repairAndResample sensor_min samples' ch t|
    ≤ 34 / 21 * ε
  := by
  have hchannel : List.Forall₂ (CloseRadar ε) (samples.map (fun sample => sample.radar ch))
      (samples'.map (fun sample => sample.radar ch)) := by
    rw [List.forall₂_map_left_iff, List.forall₂_map_right_iff]
    apply hclose.imp
    intro sample sample' hs
    apply hs.radar ch
  rw [repairAndResample, repairAndResample, ← hclose.length_eq]
  apply abs_resampleReference_sub_le (List.length_pos_iff.mpr h)
  intro i hi
  apply abs_radarReference_sub_le hε sensor_min hchannel
  rw [List.length_map]
  apply hi

/-- The inertial sensor of samples that are close. -/
theorem abs_sanitizeAndResample_sub_le {ε : K} (hε : 0 ≤ ε) {samples samples' : List (RawSample K)}
    (h : samples ≠ []) (hclose : List.Forall₂ (Close ε) samples samples') (t : Fin kTargetLength) :
  |sanitizeAndResample samples t - sanitizeAndResample samples' t| ≤ ε
  := by
  have hchannel : List.Forall₂ (CloseImu ε) (samples.map (fun sample => sample.imu))
      (samples'.map (fun sample => sample.imu)) := by
    rw [List.forall₂_map_left_iff, List.forall₂_map_right_iff]
    apply hclose.imp
    intro sample sample' hs
    apply hs.imu
  rw [sanitizeAndResample, sanitizeAndResample, ← hclose.length_eq]
  apply abs_resampleReference_sub_le (List.length_pos_iff.mpr h)
  intro i _
  apply abs_imuAt_sub_le hε hchannel

omit [IsStrictOrderedRing K] [FloorSemiring K] in
/-- Samples that are close to some samples are not empty. -/
theorem ne_nil_of_close {ε : K} {samples samples' : List (RawSample K)} (h : samples ≠ [])
    (hclose : List.Forall₂ (Close ε) samples samples') :
  samples' ≠ []
  := by
  rintro rfl
  cases hclose
  apply h rfl

/-- Samples that are close lead to tensors that are close: the radar values are at most `34/21`
times as far apart as those of the samples, and the values of the inertial sensor at most as far. -/
theorem run_stable (sensor_min : K) {ε : K} (hε : 0 ≤ ε) {samples samples' : List (RawSample K)}
    (h : samples ≠ []) (hclose : List.Forall₂ (Close ε) samples samples')
    (output output' : ModelInput K) (report report' : Option PreprocessReport) :
  ∃ x y r r',
    run (Rounding.exact K) ⟨.fin sensor_min⟩ samples output report = some (.success, x, r)
      ∧ run (Rounding.exact K) ⟨.fin sensor_min⟩ samples' output' report' = some (.success, y, r')
      ∧ ∀ t, (∀ ch, ∃ a b, x.get t (radarColumn ch) = .fin a ∧ y.get t (radarColumn ch) = .fin b
          ∧ |a - b| ≤ 34 / 21 * ε)
        ∧ ∃ a b, x.get t imuColumn = .fin a ∧ y.get t imuColumn = .fin b ∧ |a - b| ≤ ε
  := by
  obtain ⟨x, hx, hxrows⟩ := run_exact sensor_min h output report
  obtain ⟨y, hy, hyrows⟩ := run_exact sensor_min (ne_nil_of_close h hclose) output' report'
  refine ⟨x, y, _, _, hx, hy, ?_⟩
  intro t
  constructor
  · intro ch
    refine ⟨_, _, (hxrows t).1 ch, (hyrows t).1 ch, ?_⟩
    apply abs_repairAndResample_sub_le hε sensor_min h hclose
  · refine ⟨_, _, (hxrows t).2, (hyrows t).2, ?_⟩
    apply abs_sanitizeAndResample_sub_le hε h hclose

omit [IsStrictOrderedRing K] [FloorSemiring K] in
/-- Eight samples, disturbed by `d` and `-d` in turn.  In the fourth the radar values are missing,
and in the sixth the value of the inertial sensor. -/
def disturbed (d : K) : List (RawSample K) :=
  table 8 (fun i => {
    timestamp_ns := i.toUInt64
    radar := fun _ => if i = 3 then .nan else .fin ((200 + i : ℕ) + (-1) ^ i * d)
    imu := if i = 5 then .nan else .fin d })

/-- They are close, if the disturbance is not too large. -/
theorem close_disturbed {ε : K} (hε : 0 ≤ ε) (hle : ε ≤ 100) :
  List.Forall₂ (Close ε) (disturbed 0) (disturbed ε)
  := by
  rw [disturbed, disturbed, table, table, List.forall₂_map_left_iff, List.forall₂_map_right_iff,
    List.forall₂_same]
  intro i _
  have hsign : |(-1 : K) ^ i * ε| = ε := by
    rw [abs_mul, abs_pow, abs_neg, abs_one, one_pow, one_mul, abs_of_nonneg hε]
  constructor
  · intro ch
    by_cases hi : i = 3
    · left
      simp [hi, missing]
    · right
      have hbase : (200 : K) ≤ (200 + i : ℕ) := by
        push_cast
        have hnonneg : (0 : K) ≤ i := Nat.cast_nonneg i
        linarith
      have hlower := neg_abs_le ((-1 : K) ^ i * ε)
      refine ⟨_, _, if_neg hi, ?_, if_neg hi, ?_, ?_⟩
      · rw [mul_zero, add_zero]
        linarith
      · linarith
      · rw [mul_zero, add_zero, sub_add_cancel_left, abs_neg, hsign]
  · by_cases hi : i = 5
    · left
      simp [hi]
    · right
      refine ⟨_, _, if_neg hi, if_neg hi, ?_⟩
      rw [zero_sub, abs_neg, abs_of_nonneg hε]

/-- The theorem at these samples, disturbed by at most 1. -/
theorem run_stable_disturbed :
  ∃ x y r r',
    run (Rounding.exact ℚ) ⟨.fin 150⟩ (disturbed 0) (ModelInput.zero ℚ) none = some (.success, x, r)
      ∧ run (Rounding.exact ℚ) ⟨.fin 150⟩ (disturbed 1) (ModelInput.zero ℚ) none
        = some (.success, y, r')
      ∧ ∀ t, (∀ ch, ∃ a b, x.get t (radarColumn ch) = .fin a ∧ y.get t (radarColumn ch) = .fin b
          ∧ |a - b| ≤ 34 / 21 * 1)
        ∧ ∃ a b, x.get t imuColumn = .fin a ∧ y.get t imuColumn = .fin b ∧ |a - b| ≤ 1
  := run_stable 150 zero_le_one (List.cons_ne_nil _ _) (close_disturbed zero_le_one (by norm_num))
    (ModelInput.zero ℚ) (ModelInput.zero ℚ) none none

/-- Samples with the values `f` in all channels. -/
def level (f : ℕ → K) (n : ℕ) : List (RawSample K) :=
  table n (fun i => ⟨i.toUInt64, fun _ => .fin (f i), .fin 0⟩)

/-- The first row of the tensor, for seven positive values that do not fall below `sensor_min`. -/
theorem run_level {sensor_min : K} {f : ℕ → K} (hf : ∀ i, i < 7 → 0 < f i)
    (hmin : sensor_min ≤ ∑ j : Fin 7, kWeights K 0 j * f j) (output : ModelInput K)
    (report : Option PreprocessReport) :
  ∃ x r, run (Rounding.exact K) ⟨.fin sensor_min⟩ (level f 7) output report = some (.success, x, r)
    ∧ ∀ ch, x.get ⟨0, by decide⟩ (radarColumn ch) = .fin (∑ j : Fin 7, kWeights K 0 j * f j)
  := by
  have hlength : (level f 7).length = 7 := length_table _ _
  have hne : level f 7 ≠ [] := by
    rw [← List.length_pos_iff, hlength]
    decide
  obtain ⟨x, hx, hxrows⟩ := run_exact sensor_min hne output report
  refine ⟨x, _, hx, ?_⟩
  intro ch
  have hfill : ∀ i, i < 7 →
      fillGaps (validAt ((level f 7).map (fun sample => sample.radar ch))) 7 sensor_min i
        = f i := by
    intro i hi
    apply fillGaps_of_some hi
    rw [level, map_table, validAt, getElem?_table _ hi, Option.bind_some, validValue,
      if_neg (not_le.mpr (hf i hi))]
  have hsum : savgol (fillGaps (validAt ((level f 7).map (fun sample => sample.radar ch))) 7
      sensor_min) 7 0 = ∑ j : Fin 7, kWeights K 0 j * f j := by
    have hstart : fitStart 7 0 = 0 := rfl
    have hrow : 0 = fitStart 7 0 + ((0 : Fin 7) : ℕ) := rfl
    rw [savgol_eq_sum _ le_rfl hrow]
    apply Finset.sum_congr rfl
    intro j _
    rw [hstart, zero_add, hfill j j.isLt]
  rw [(hxrows _).1, repairAndResample, resampleReference, Nat.cast_zero, zero_mul, zero_div,
    ← Nat.cast_zero, piecewiseLinear_natCast, radarReference, List.length_map, hlength, hsum,
    max_eq_left hmin]

/-- The bound is the best: some samples that are close lead to radar values that are `34/21` times
as far apart. -/
theorem run_stable_sharp (sensor_min : K) {ε : K} (hε : 0 ≤ ε) (output : ModelInput K)
    (report : Option PreprocessReport) :
  ∃ samples samples' x y r r', samples ≠ [] ∧ List.Forall₂ (Close ε) samples samples'
    ∧ run (Rounding.exact K) ⟨.fin sensor_min⟩ samples output report = some (.success, x, r)
    ∧ run (Rounding.exact K) ⟨.fin sensor_min⟩ samples' output report = some (.success, y, r')
    ∧ ∃ t, ∀ ch, ∃ a b, x.get t (radarColumn ch) = .fin a ∧ y.get t (radarColumn ch) = .fin b
      ∧ |a - b| = 34 / 21 * ε
  := by
  let base : K := |sensor_min| + ε + 1
  have habs := abs_nonneg sensor_min
  have hmin := le_abs_self sensor_min
  let f : ℕ → K := fun _ => base
  let g : ℕ → K := fun i => if i = 3 ∨ i = 4 ∨ i = 5 then base - ε else base + ε
  have hf : ∀ i, i < 7 → 0 < f i := by
    intro i _
    positivity
  have hg : ∀ i, i < 7 → 0 < g i := by
    intro i _
    simp only [g, base]
    split <;> linarith
  have hsum_f : ∑ j : Fin 7, kWeights K 0 j * f j = base := by
    simp only [Fin.sum_univ_seven, kWeights_eq, eval_quadraticKernel, f]
    norm_num
    ring
  have hsum_g : ∑ j : Fin 7, kWeights K 0 j * g j = base + 34 / 21 * ε := by
    simp only [Fin.sum_univ_seven, kWeights_eq, eval_quadraticKernel, g]
    norm_num
    ring
  have hmin_f : sensor_min ≤ ∑ j : Fin 7, kWeights K 0 j * f j := by
    rw [hsum_f]
    simp only [base]
    linarith
  have hmin_g : sensor_min ≤ ∑ j : Fin 7, kWeights K 0 j * g j := by
    rw [hsum_g]
    simp only [base]
    linarith
  obtain ⟨x, r, hx, hxrow⟩ := run_level hf hmin_f output report
  obtain ⟨y, r', hy, hyrow⟩ := run_level hg hmin_g output report
  refine ⟨level f 7, level g 7, x, y, r, r', ?_, ?_, hx, hy, ⟨0, by decide⟩, ?_⟩
  · rw [← List.length_pos_iff, level, length_table]
    decide
  · rw [level, level, table, table, List.forall₂_map_left_iff, List.forall₂_map_right_iff,
      List.forall₂_same]
    intro i hi
    rw [List.mem_range] at hi
    constructor
    · intro ch
      right
      refine ⟨_, _, rfl, hf i hi, rfl, hg i hi, ?_⟩
      simp only [f, g]
      split <;> simp [abs_of_nonneg hε]
    · right
      exact ⟨0, 0, rfl, rfl, by simpa using hε⟩
  · intro ch
    refine ⟨_, _, hxrow ch, hyrow ch, ?_⟩
    rw [hsum_f, hsum_g, sub_add_cancel_left, abs_neg, abs_of_nonneg]
    positivity

/-- The theorem at disturbances by at most 1. -/
theorem run_stable_sharp_one :
  ∃ samples samples' x y r r', samples ≠ [] ∧ List.Forall₂ (Close 1) samples samples'
    ∧ run (Rounding.exact ℚ) ⟨.fin 150⟩ samples (ModelInput.zero ℚ) none = some (.success, x, r)
    ∧ run (Rounding.exact ℚ) ⟨.fin 150⟩ samples' (ModelInput.zero ℚ) none = some (.success, y, r')
    ∧ ∃ t, ∀ ch, ∃ a b, x.get t (radarColumn ch) = .fin a ∧ y.get t (radarColumn ch) = .fin b
      ∧ |a - b| = 34 / 21 * 1
  := by
  apply run_stable_sharp 150 zero_le_one

/-! ### Lines -/

omit [FloorSemiring K] in
/-- The reference values of a channel whose valid values are on a line, at its ends too. -/
theorem radarReference_of_line {sensor_min a b : K} {values : List (Flt K)}
    (hline : ∀ i y, ValidAt values i y → y = a + b * i) (hfirst : ∃ y, ValidAt values 0 y)
    (hlast : ∃ y, ValidAt values (values.length - 1) y)
    (hmin : ∀ i, i < values.length → sensor_min ≤ a + b * i) {i : ℕ} (hi : i < values.length) :
  radarReference sensor_min values i = a + b * i
  := by
  have hvalid : ∀ k, (∃ y, ValidAt values k y) → validAt values k ≠ none := by
    rintro k ⟨y, hy⟩ hnone
    rw [validAt_eq_some_iff.mpr hy] at hnone
    cases hnone
  have hfill : ∀ i, i < values.length →
      fillGaps (validAt values) values.length sensor_min i = a + b * i := by
    intro i hi
    apply fillGaps_of_line sensor_min _ (hvalid _ hfirst) (hvalid _ hlast) hi
    intro k y _ hy
    apply hline k y (validAt_eq_some_iff.mp hy)
  rw [radarReference, savgol_of_line hfill hi, max_eq_left (hmin i hi)]

/-- A radar channel whose valid values are on a line that stays above `sensor_min`, with a valid
value at each end, is reconstructed as the line, whatever values are missing between; the other
channels make no difference. -/
theorem run_line (sensor_min : K) {samples : List (RawSample K)} (h : samples ≠ [])
    {ch : Fin kRadarChannels} {a b : K}
    (hline : ∀ i y, ValidAt (samples.map (fun sample => sample.radar ch)) i y → y = a + b * i)
    (hfirst : ∃ y, ValidAt (samples.map (fun sample => sample.radar ch)) 0 y)
    (hlast : ∃ y, ValidAt (samples.map (fun sample => sample.radar ch)) (samples.length - 1) y)
    (hmin : ∀ i, i < samples.length → sensor_min ≤ a + b * i)
    (output : ModelInput K) (report : Option PreprocessReport) :
  ∃ x r, run (Rounding.exact K) ⟨.fin sensor_min⟩ samples output report = some (.success, x, r)
    ∧ ∀ t : Fin kTargetLength, x.get t (radarColumn ch)
      = .fin (a + b * ((t : ℕ) * (samples.length - 1 : ℕ) / (kTargetLength - 1 : ℕ)))
  := by
  have hpos : 0 < samples.length := List.length_pos_iff.mpr h
  obtain ⟨x, hx, hxrows⟩ := run_exact sensor_min h output report
  refine ⟨x, _, hx, ?_⟩
  intro t
  obtain ⟨h₀, h₁⟩ := row_mem (K := K) samples.length t
  rw [(hxrows t).1, repairAndResample, resampleReference]
  rw [piecewiseLinear_of_line _ hpos h₀ h₁]
  intro i hi
  apply radarReference_of_line hline hfirst
  · rw [List.length_map]
    apply hlast
  · rw [List.length_map]
    apply hmin
  · rw [List.length_map]
    apply hi

/-- The theorem at three samples on a line, the second of them missing. -/
theorem run_line_three :
  ∃ samples : List (RawSample ℚ),
    samples = [⟨0, fun _ => .fin 200, .fin 1⟩, ⟨1, fun _ => .nan, .posInf⟩,
      ⟨2, fun _ => .fin 260, .fin 3⟩]
    ∧ ∃ x r, run (Rounding.exact ℚ) ⟨.fin 150⟩ samples (ModelInput.zero ℚ) none
        = some (.success, x, r)
      ∧ ∀ t : Fin kTargetLength, x.get t (radarColumn ⟨0, by decide⟩)
        = .fin (200 + 30 * ((t : ℕ) * (samples.length - 1 : ℕ) / (kTargetLength - 1 : ℕ)))
  := by
  refine ⟨_, rfl, ?_⟩
  apply run_line 150 (by simp)
  · rintro i y ⟨hy, -⟩
    match i with
    | 0 =>
        cases hy
        norm_num
    | 1 => cases hy
    | 2 =>
        cases hy
        norm_num
    | _ + 3 => cases hy
  · exact ⟨200, validAt_eq_some_iff.mp rfl⟩
  · exact ⟨260, validAt_eq_some_iff.mp rfl⟩
  · intro i _
    have hi : (0 : ℚ) ≤ i := Nat.cast_nonneg i
    linarith

/-! ### Units -/

/-- A sample with its radar values in another unit. -/
def scaleRadar (α : K) (sample : RawSample K) : RawSample K :=
  { sample with radar := fun ch => .fin α * sample.radar ch }

omit [FloorSemiring K] in
/-- A value in another unit is valid where the value is. -/
theorem validValue_mul {α : K} (hα : 0 < α) (value : Flt K) :
  validValue (.fin α * value) = (validValue value).map (fun y => α * y)
  := by
  cases value with
  | fin x =>
      rw [Flt.fin_mul, validValue, validValue]
      by_cases hx : x ≤ 0
      · rw [if_pos hx, if_pos (mul_nonpos_of_nonneg_of_nonpos hα.le hx)]
        rfl
      · rw [if_neg hx, if_neg (not_le.mpr (mul_pos hα (not_le.mp hx)))]
        rfl
  | nan => rfl
  | posInf => simp [validValue, HMul.hMul, Mul.mul, Flt.mul, Flt.scaleInf, hα]
  | negInf => simp [validValue, HMul.hMul, Mul.mul, Flt.mul, Flt.scaleInf, hα, not_lt.mpr hα.le]

omit [FloorSemiring K] in
/-- The valid elements of a channel in another unit. -/
theorem combines_mul {α : K} (hα : 0 < α) (values : List (Flt K)) :
  Combines α 0 (validAt values) (validAt values)
    (validAt (values.map (fun value => .fin α * value)))
  := by
  intro i
  have hmap : validAt (values.map (fun value => .fin α * value)) i
      = (validAt values i).map (fun y => α * y) := by
    rw [validAt, validAt, List.getElem?_map]
    cases values[i]? with
    | none => rfl
    | some value => rw [Option.map_some, Option.bind_some, Option.bind_some, validValue_mul hα]
  rw [hmap]
  cases validAt values i with
  | none => exact Or.inl ⟨rfl, rfl, rfl⟩
  | some y =>
      right
      exact ⟨y, y, rfl, rfl, by rw [Option.map_some, zero_mul, add_zero]⟩

omit [FloorSemiring K] in
/-- The reference values of a channel in another unit. -/
theorem radarReference_mul {α : K} (hα : 0 < α) (sensor_min : K) (values : List (Flt K)) {i : ℕ}
    (hi : i < values.length) :
  radarReference (α * sensor_min) (values.map (fun value => .fin α * value)) i
    = α * radarReference sensor_min values i
  := by
  have hfill : fillGaps (validAt (values.map (fun value => .fin α * value))) values.length
      (α * sensor_min) = fun i => α * fillGaps (validAt values) values.length sensor_min i
        + 0 * fillGaps (validAt values) values.length sensor_min i := by
    funext i
    rw [← fillGaps_of_combines (combines_mul hα values), zero_mul, add_zero]
  rw [radarReference, radarReference, List.length_map, hfill, savgol_combination _ _ _ _ hi,
    zero_mul, add_zero, mul_max_of_nonneg _ _ hα.le]

omit [FloorSemiring K] [IsStrictOrderedRing K] in
theorem missing_iff (value : Flt K) :
  missing value = true ↔ validValue value = none
  := by
  have hone : validAt [value] 0 = none ↔ missing value = true :=
    validAt_eq_none_iff (Nat.one_pos)
  apply hone.symm

omit [FloorSemiring K] in
/-- The statistics of a channel in another unit. -/
theorem repairStats_mul {α : K} (hα : 0 < α) (values : List (Flt K)) :
  repairStats (values.map (fun value => .fin α * value)) = repairStats values
  := by
  have hmissing : missing ∘ (fun value => .fin α * value) = (missing : Flt K → Bool) := by
    funext value
    rw [Function.comp_apply, Bool.eq_iff_iff, missing_iff, missing_iff, validValue_mul hα,
      Option.map_eq_none_iff]
  rw [repairStats, repairStats, List.countP_map, List.all_map, List.isEmpty_map, hmissing]

omit [FloorSemiring K] in
/-- The report on samples in another unit. -/
theorem reportOn_scaleRadar {α : K} (hα : 0 < α) (samples : List (RawSample K)) :
  reportOn (samples.map (scaleRadar α))
      (fun ch => repairStats ((samples.map (scaleRadar α)).map (fun sample => sample.radar ch)))
    = reportOn samples (fun ch => repairStats (samples.map (fun sample => sample.radar ch)))
  := by
  have hradar : ∀ ch, (samples.map (scaleRadar α)).map (fun sample => sample.radar ch)
      = (samples.map (fun sample => sample.radar ch)).map (fun value => .fin α * value) := by
    intro ch
    rw [List.map_map, List.map_map]
    rfl
  have himu : (samples.map (scaleRadar α)).map (fun sample => sample.imu)
      = samples.map (fun sample => sample.imu) := by
    rw [List.map_map]
    rfl
  simp only [reportOn, hradar, himu, repairStats_mul hα, List.length_map]

/-- A sequence in another unit at the rows. -/
theorem resampleReference_mul (α : K) {f g : ℕ → K} {n : ℕ} (hn : 0 < n)
    (h : ∀ i, i < n → g i = α * f i) (t : Fin kTargetLength) :
  resampleReference g n t = α * resampleReference f n t
  := by
  have hle : |resampleReference g n t - resampleReference (fun i => α * f i + 0 * f i) n t|
      ≤ 0 := by
    apply abs_resampleReference_sub_le hn
    intro i hi
    rw [h i hi, zero_mul, add_zero, sub_self, abs_zero]
  rw [sub_eq_zero.mp (abs_nonpos_iff.mp hle), resampleReference, piecewiseLinear_combination,
    zero_mul, add_zero, resampleReference]

/-- With the radar values and `sensor_min` in another unit, the radar values of the tensor are in
the other unit, and nothing else changes. -/
theorem run_scale (sensor_min : K) {α : K} (hα : 0 < α) {samples : List (RawSample K)}
    (h : samples ≠ []) (output output' : ModelInput K) (report report' : PreprocessReport) :
  ∃ x y r, run (Rounding.exact K) ⟨.fin sensor_min⟩ samples output (some report)
      = some (.success, x, some r)
    ∧ run (Rounding.exact K) ⟨.fin (α * sensor_min)⟩ (samples.map (scaleRadar α)) output'
        (some report') = some (.success, y, some r)
    ∧ ∀ t, (∀ ch, y.get t (radarColumn ch) = .fin α * x.get t (radarColumn ch))
      ∧ y.get t imuColumn = x.get t imuColumn
  := by
  have hpos : 0 < samples.length := List.length_pos_iff.mpr h
  have hne : samples.map (scaleRadar α) ≠ [] := by simpa using h
  obtain ⟨x, hx, hxrows⟩ := run_exact sensor_min h output (some report)
  obtain ⟨y, hy, hyrows⟩ := run_exact (α * sensor_min) hne output' (some report')
  rw [reportOn_scaleRadar hα] at hy
  refine ⟨x, y, _, hx, hy, ?_⟩
  intro t
  constructor
  · intro ch
    have hchannel : (samples.map (scaleRadar α)).map (fun sample => sample.radar ch)
        = (samples.map (fun sample => sample.radar ch)).map (fun value => .fin α * value) := by
      rw [List.map_map, List.map_map]
      rfl
    rw [(hyrows t).1, (hxrows t).1, Flt.fin_mul, repairAndResample, repairAndResample,
      List.length_map, hchannel]
    congr 1
    apply resampleReference_mul α hpos
    intro i hi
    apply radarReference_mul hα
    rw [List.length_map]
    apply hi
  · rw [(hyrows t).2, (hxrows t).2, sanitizeAndResample, sanitizeAndResample, List.length_map,
      List.map_map]
    rfl

/-- The theorem at two samples in centimetres instead of metres. -/
theorem run_scale_two :
  ∃ samples : List (RawSample ℚ),
    samples = [⟨0, fun _ => .fin 2, .fin 1⟩, ⟨1, fun _ => .negInf, .nan⟩]
    ∧ ∃ x y r, run (Rounding.exact ℚ) ⟨.fin (3 / 2)⟩ samples (ModelInput.zero ℚ)
        (some (PreprocessReport.ofSamples 0)) = some (.success, x, some r)
      ∧ run (Rounding.exact ℚ) ⟨.fin (100 * (3 / 2))⟩ (samples.map (scaleRadar 100))
        (ModelInput.zero ℚ) (some (PreprocessReport.ofSamples 0)) = some (.success, y, some r)
      ∧ ∀ t, (∀ ch, y.get t (radarColumn ch) = .fin 100 * x.get t (radarColumn ch))
        ∧ y.get t imuColumn = x.get t imuColumn
  := by
  refine ⟨_, rfl, ?_⟩
  apply run_scale (3 / 2) (by norm_num) (by simp)

end Preprocessor
