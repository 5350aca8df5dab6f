import PipeAI.Preprocess.Reference

/-!
# Reversal of time

Filling the gaps, smoothing, clamping, and linear interpolation all commute with the reversal of
a sequence.  In exact arithmetic, the tensor computed from the reversed list of samples is
therefore the tensor computed from the samples, with its rows reversed, and the reports are the
same (`Preprocessor.run_reverse`).
-/

universe u

namespace Preprocessor

variable {K : Type u} [Field K] [LinearOrder K]

/-! ### Channels -/

/-- The valid elements of the reversed channel. -/
theorem mirrored_validAt (values : List (Flt K)) :
  Mirrored values.length (validAt values) (validAt values.reverse)
  := by
  intro i hi
  rw [validAt, validAt, List.getElem?_reverse hi]

omit [LinearOrder K] in
/-- The values of the reversed inertial sensor. -/
theorem mirrored_imuAt (values : List (Flt K)) :
  Mirrored values.length (imuAt values) (imuAt values.reverse)
  := by
  intro i hi
  rw [imuAt, imuAt, List.getElem?_reverse hi]

/-- The statistics of the reversed channel. -/
theorem repairStats_reverse (values : List (Flt K)) :
  repairStats values.reverse = repairStats values
  := by
  rw [repairStats, repairStats, List.countP_reverse, List.isEmpty_reverse, List.all_reverse]

/-- The report on the reversed samples. -/
theorem reportOn_reverse (samples : List (RawSample K)) :
  reportOn samples.reverse
      (fun ch => repairStats (samples.reverse.map (fun sample => sample.radar ch)))
    = reportOn samples (fun ch => repairStats (samples.map (fun sample => sample.radar ch)))
  := by
  simp only [reportOn, sanitizeImu, List.map_reverse, repairStats_reverse, List.length_reverse,
    List.countP_reverse]

variable [IsStrictOrderedRing K]

/-- The reference values of the reversed channel. -/
theorem mirrored_radarReference (sensor_min : K) (values : List (Flt K)) :
  Mirrored values.length (radarReference sensor_min values)
    (radarReference sensor_min values.reverse)
  := by
  have hsavgol := mirrored_savgol (mirrored_fillGaps (mirrored_validAt values) sensor_min)
  intro i hi
  rw [radarReference, radarReference, List.length_reverse, hsavgol i hi]

variable [FloorSemiring K]

/-- Resampling commutes with reversal. -/
theorem resampleReference_mirrored {n : ℕ} {f g : ℕ → K} (h : Mirrored n f g) (hn : 0 < n)
    (t : Fin kTargetLength) :
  resampleReference g n t = resampleReference f n t.rev
  := by
  have hlast : (0 : K) < (kTargetLength - 1 : ℕ) := by
    rw [Nat.cast_pos]
    decide
  have ht : (t : ℕ) ≤ kTargetLength - 1 := Nat.le_sub_one_of_lt t.isLt
  have hpos : 0 ≤ ((t : ℕ) : K) * (n - 1 : ℕ) / (kTargetLength - 1 : ℕ) := by
    apply div_nonneg (mul_nonneg (Nat.cast_nonneg _) (Nat.cast_nonneg _)) hlast.le
  have hle : ((t : ℕ) : K) * (n - 1 : ℕ) / (kTargetLength - 1 : ℕ) ≤ (n - 1 : ℕ) := by
    rw [div_le_iff₀ hlast, mul_comm]
    apply mul_le_mul_of_nonneg_left _ (Nat.cast_nonneg _)
    rw [Nat.cast_le]
    apply ht
  have hrev : ((t.rev : ℕ) : K) = (kTargetLength - 1 : ℕ) - (t : ℕ) := by
    rw [Fin.val_rev, (by omega : kTargetLength - (t + 1) = kTargetLength - 1 - t), Nat.cast_sub ht]
  rw [resampleReference, piecewiseLinear_mirrored h hn hpos hle, resampleReference, hrev]
  congr 1
  rw [sub_mul, sub_div, mul_div_cancel_left₀ _ hlast.ne']

/-- In exact arithmetic the preprocessor gives on the reversed samples the reversed tensor, and the
same report. -/
theorem run_reverse (sensor_min : K) {samples : List (RawSample K)} (h : samples ≠ [])
    (output output' : ModelInput K) (report report' : PreprocessReport) :
  ∃ x y r, run (Rounding.exact K) ⟨.fin sensor_min⟩ samples output (some report)
      = some (.success, x, some r)
    ∧ run (Rounding.exact K) ⟨.fin sensor_min⟩ samples.reverse output' (some report')
      = some (.success, y, some r)
    ∧ ∀ t c, y.get t c = x.get t.rev c
  := by
  have hpos : 0 < samples.length := List.length_pos_iff.mpr h
  have hne : samples.reverse ≠ [] := by simpa using h
  obtain ⟨x, hx, hxrows⟩ := run_exact sensor_min h output (some report)
  obtain ⟨y, hy, hyrows⟩ := run_exact sensor_min hne output' (some report')
  rw [reportOn_reverse] at hy
  refine ⟨x, y, _, hx, hy, ?_⟩
  intro t c
  rcases column_cases c with ⟨ch, rfl⟩ | rfl
  · have hchannel := mirrored_radarReference sensor_min
      (samples.map (fun sample => sample.radar ch))
    rw [List.length_map, ← List.map_reverse] at hchannel
    rw [(hyrows t).1, (hxrows t.rev).1, repairAndResample, repairAndResample,
      List.length_reverse, resampleReference_mirrored hchannel hpos]
  · have himu := mirrored_imuAt (samples.map (fun sample => sample.imu))
    rw [List.length_map, ← List.map_reverse] at himu
    rw [(hyrows t).2, (hxrows t.rev).2, sanitizeAndResample, sanitizeAndResample,
      List.length_reverse, resampleReference_mirrored himu hpos]

/-- The theorem at three samples, with missing values before and after a valid one. -/
theorem run_reverse_three :
  ∃ samples : List (RawSample ℚ),
    samples = [⟨0, fun _ => .nan, .fin 1⟩, ⟨1, fun _ => .fin 200, .posInf⟩,
      ⟨2, fun _ => .fin (-1), .fin 3⟩]
    ∧ ∃ x y r, run (Rounding.exact ℚ) ⟨.fin 150⟩ samples (ModelInput.zero ℚ)
          (some (PreprocessReport.ofSamples 0)) = some (.success, x, some r)
      ∧ run (Rounding.exact ℚ) ⟨.fin 150⟩ samples.reverse (ModelInput.zero ℚ)
          (some (PreprocessReport.ofSamples 0)) = some (.success, y, some r)
      ∧ ∀ t c, y.get t c = x.get t.rev c
  := by
  refine ⟨_, rfl, ?_⟩
  apply run_reverse 150 (by simp)

end Preprocessor
