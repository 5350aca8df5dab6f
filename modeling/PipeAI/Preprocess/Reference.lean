import PipeAI.Preprocess.Preprocessor
import Mathlib.Data.Rat.Floor

/-!
# The reference preprocessing

`repairAndResample` states what the preprocessing is for, in terms of sequences: fill the
gaps of the radar channels, smooth them by quadratic least-squares fits, take the maximum with
`sensor_min`, and read the piecewise-linear interpolants of all channels at `kTargetLength`
equidistant points.

With exact knots, and where rounding does not change the values that fill the gaps, the tensor
is given by a formula with the rounding of the smoothed and of the resampled values
(`Preprocessor.run_eq`).  In exact rational arithmetic this is the reference
(`Preprocessor.run_eq_repairAndResample`).
-/

universe u

namespace Preprocessor

variable {K : Type u} [Field K] [LinearOrder K]

/-- A radar channel with its gaps filled, smoothed, and clamped. -/
noncomputable def radarReference (sensor_min : K) (values : List (Flt K)) (i : ℕ) : K :=
  max (savgol (fillGaps (validAt values) values.length sensor_min) values.length i) sensor_min

/-- The values of a radar channel that are resampled: with its gaps filled, smoothed, rounded, and
clamped. -/
noncomputable def radarValues (R : Rounding K) (sensor_min : K) (values : List (Flt K)) (i : ℕ) :
    Flt K :=
  Flt.max (R.toFloat (.fin
    (savgol (fillGaps (validAt values) values.length sensor_min) values.length i)))
    (.fin sensor_min)

variable [FloorSemiring K]

/-- The piecewise-linear interpolant of a sequence of length `n` at the row `t`. -/
def resampleReference (f : ℕ → K) (n : ℕ) (t : Fin kTargetLength) : K :=
  piecewiseLinear f ((t : ℕ) * (n - 1 : ℕ) / (kTargetLength - 1 : ℕ))

/-- `repair_and_resample` for a radar channel. -/
noncomputable def repairAndResample (sensor_min : K) (samples : List (RawSample K))
    (ch : Fin kRadarChannels) (t : Fin kTargetLength) : K :=
  resampleReference (radarReference sensor_min (samples.map (fun sample => sample.radar ch)))
    samples.length t

/-- `repair_and_resample` for the inertial sensor. -/
def sanitizeAndResample (samples : List (RawSample K)) (t : Fin kTargetLength) : K :=
  resampleReference (imuAt (samples.map (fun sample => sample.imu))) samples.length t

/-- The position of a row in the unit interval. -/
def position (K : Type u) [Field K] (t : Fin kTargetLength) : K :=
  ((t : ℕ) : K) / (kTargetLength - 1 : ℕ)

variable [IsStrictOrderedRing K]

omit [FloorSemiring K] in
theorem position_mem (t : Fin kTargetLength) :
  0 ≤ position K t ∧ position K t ≤ 1
  := by
  have hpos : (0 : K) < (kTargetLength - 1 : ℕ) := by
    rw [Nat.cast_pos]
    decide
  constructor
  · apply div_nonneg (Nat.cast_nonneg _) hpos.le
  · rw [position, div_le_one hpos, Nat.cast_le]
    have ht := t.isLt
    omega

/-- The preprocessor succeeds, with the report on the samples, and its tensor holds the values
computed from the channels at the positions of the rows. -/
theorem run_eq {R : Rounding K} (hknot : ∀ x, R.knot x = x) (sensor_min : K)
    {samples : List (RawSample K)} (h : samples ≠ [])
    (hfill : ∀ ch i, i < samples.length →
      R.toFloat (.fin (fillGaps (validAt (samples.map (fun sample => sample.radar ch)))
          samples.length sensor_min i))
        = .fin (fillGaps (validAt (samples.map (fun sample => sample.radar ch)))
          samples.length sensor_min i))
    (output : ModelInput K) (report : Option PreprocessReport) :
  ∃ output', run R ⟨.fin sensor_min⟩ samples output report
      = some (.success, output', report.map (fun _ => reportOn samples
          (fun ch => repairStats (samples.map (fun sample => sample.radar ch)))))
    ∧ ∀ t, (∀ ch, output'.get t (radarColumn ch) = interpolate R
          (radarValues R sensor_min (samples.map (fun sample => sample.radar ch)))
          samples.length (position K t))
      ∧ output'.get t imuColumn = interpolate R
          (fun i => .fin (imuAt (samples.map (fun sample => sample.imu)) i))
          samples.length (position K t)
  := by
  have hpos : 0 < samples.length := List.length_pos_iff.mpr h
  let radar : Radar K := fun ch => samples.map (fun sample => sample.radar ch)
  let imu := samples.map (fun sample => sample.imu)
  let filled : Fin kRadarChannels → ℕ → K := fun ch =>
    fillGaps (validAt (radar ch)) samples.length sensor_min
  obtain ⟨output', hrun, radar_out, imu_out, hradar, himu, hrows⟩ :=
    run_spec R ⟨.fin sensor_min⟩ h rfl output report (fun ch => repairStats (radar ch))
    (P := fun ch channel => channel = table samples.length (fun i => .fin (filled ch i)))
    (Q := fun ch channel => channel = table samples.length (fun i =>
      R.toFloat (.fin (savgol (filled ch) samples.length i))))
    (S := fun ch out => out = table kTargetLength (fun t => interpolate R
      (radarValues R sensor_min (radar ch)) samples.length
      ((t : K) / (kTargetLength - 1 : ℕ))))
    (T := fun out => out = table kTargetLength (fun t => interpolate R
      (fun i => .fin (imuAt imu i)) samples.length ((t : K) / (kTargetLength - 1 : ℕ))))
    (by
      intro ch
      have hrepair := repairRadarChannel_eq R (radar ch) sensor_min (by
        rw [List.length_map]
        apply hfill ch)
      rw [List.length_map] at hrepair
      exact ⟨_, hrepair, rfl⟩)
    (by
      rintro ch channel rfl
      split
      · rename_i hlong
        exact ⟨_, savgol72Interp_eq R _ hlong, rfl⟩
      · rename_i hshort
        apply eq_table (length_table _ _)
        intro i hi
        rw [getElem?_table _ hi, savgol, if_pos (by omega), hfill ch i hi])
    (by
      rintro ch channel out rfl
      have hvalues : (fun i => (R.toFloat (.fin (savgol (filled ch) samples.length i))).max
          (.fin sensor_min)) = radarValues R sensor_min (radar ch) := by
        funext i
        rw [radarValues, List.length_map]
      rw [map_table, hvalues]
      exact ⟨_, resampleLinearNormalized_eq hknot _ hpos (by decide) out, rfl⟩)
    (by
      rw [sanitizeImu_eq, List.length_map]
      exact ⟨_, resampleLinearNormalized_eq hknot _ hpos (by decide) [], rfl⟩)
    (by
      rintro ch out rfl
      apply length_table)
    (by
      rintro out rfl
      apply length_table)
  refine ⟨output', hrun, ?_⟩
  intro t
  obtain ⟨hr, hi⟩ := hrows t
  constructor
  · intro ch
    have hval := hr ch
    rw [hradar ch, getElem?_table _ t.isLt, Option.some.injEq] at hval
    rw [← hval, position]
  · rw [himu, getElem?_table _ t.isLt, Option.some.injEq] at hi
    rw [← hi, position]

/-- In exact arithmetic the preprocessor computes the reference. -/
theorem run_exact (sensor_min : K) {samples : List (RawSample K)} (h : samples ≠ [])
    (output : ModelInput K) (report : Option PreprocessReport) :
  ∃ output', run (Rounding.exact K) ⟨.fin sensor_min⟩ samples output report
      = some (.success, output', report.map (fun _ => reportOn samples
          (fun ch => repairStats (samples.map (fun sample => sample.radar ch)))))
    ∧ ∀ t, (∀ ch, output'.get t (radarColumn ch)
        = .fin (repairAndResample sensor_min samples ch t))
      ∧ output'.get t imuColumn = .fin (sanitizeAndResample samples t)
  := by
  have hpos : 0 < samples.length := List.length_pos_iff.mpr h
  obtain ⟨output', hrun, hrows⟩ := run_eq (R := Rounding.exact K) (fun _ => rfl) sensor_min h
    (fun _ _ _ => rfl) output report
  refine ⟨output', hrun, ?_⟩
  intro t
  obtain ⟨hradar, himu⟩ := hrows t
  obtain ⟨h₀, h₁⟩ := position_mem (K := K) t
  constructor
  · intro ch
    have hvalues : radarValues (Rounding.exact K) sensor_min
        (samples.map (fun sample => sample.radar ch))
        = fun i =>
          .fin (radarReference sensor_min (samples.map (fun sample => sample.radar ch)) i) := by
      funext i
      apply Flt.max_fin
    rw [hradar ch, hvalues, interpolate_exact _ hpos h₀ h₁, repairAndResample, resampleReference,
      position, div_mul_eq_mul_div]
  · rw [himu, interpolate_exact _ hpos h₀ h₁, sanitizeAndResample, resampleReference, position,
      div_mul_eq_mul_div]

/-- In exact rational arithmetic the preprocessor succeeds and computes the reference, for
every finite `sensor_min` and all samples that are not empty. -/
theorem run_eq_repairAndResample (sensor_min : ℚ) (samples : List (RawSample ℚ))
    (h : samples ≠ []) (output : ModelInput ℚ) (report : Option PreprocessReport) :
  ∃ output' report',
    run (Rounding.exact ℚ) ⟨.fin sensor_min⟩ samples output report
        = some (.success, output', report')
      ∧ ∀ t,
        (∀ ch, output'.values (ModelInput.index t (radarColumn ch))
          = .fin (repairAndResample sensor_min samples ch t))
        ∧ output'.values (ModelInput.index t imuColumn) = .fin (sanitizeAndResample samples t)
  := by
  obtain ⟨output', hrun, hrows⟩ := run_exact sensor_min h output report
  exact ⟨output', _, hrun, hrows⟩

/-- The theorem at two samples, one with a missing radar value. -/
theorem run_eq_repairAndResample_two :
  ∃ samples : List (RawSample ℚ), samples.length = 2 ∧ samples ≠ [] ∧
    ∃ output' report',
      run (Rounding.exact ℚ) ⟨.fin 150⟩ samples (ModelInput.zero ℚ) none
          = some (.success, output', report')
        ∧ ∀ t,
          (∀ ch, output'.values (ModelInput.index t (radarColumn ch))
            = .fin (repairAndResample 150 samples ch t))
          ∧ output'.values (ModelInput.index t imuColumn)
            = .fin (sanitizeAndResample samples t)
  := by
  use [⟨0, fun _ => .fin 200, .nan⟩, ⟨1, fun _ => .nan, .fin 3⟩], rfl, by simp
  apply run_eq_repairAndResample 150 _ (by simp)

end Preprocessor
