import PipeAI.Algorithm.TrainingStats
import PipeAI.Numeric.Interp
import PipeAI.Preprocess.Reference

/-!
# The preprocessing of the training script

`repair_and_resample` prepares the samples of a file for the training, and for the scripts that run
the model.  It works on whole columns with functions of NumPy and SciPy: it interpolates the missing
values of a radar channel through the others at their indices, smooths the channel with
`savgol_filter`, takes the maximum with `sensor_min`, and interpolates the columns through
equidistant points.

The preprocessor of the pipeline goes through the gaps of a channel one by one, smooths it with a
table of weights, and searches for the interval around each position.  In exact arithmetic both
compute the same reference (`repairAndResample_eq`).

The reading of the file is left out.  `savgol_filter` is a parameter, which smooths as its
documentation says.
-/

universe u

open Polynomial

namespace NetTraining

variable {K : Type u} [Field K] [LinearOrder K]

/-! ### The code -/

/-- An invalid value of a radar channel becomes not-a-number. -/
def invalidToNan (value : Flt K) : Flt K :=
  let value := if value.isFinite then value else .nan
  if value.le (.fin 0) then .nan else value

/-- The indices of the numbers in a column, `idx[~mask]`, with the numbers, `col[~mask]`. -/
def numbers (col : List (Flt K)) : List (K × K) :=
  col.zipIdx.filterMap (fun p => match p.1 with
    | .fin x => some ((p.2 : K), x)
    | _ => none)

/-- The body of the loop over the radar channels: a column without the values that are not
numbers. -/
def fillNan (sensor_min : K) (col : List (Flt K)) : List K :=
  if col.all Flt.isNan then col.map (fun _ => sensor_min)
  else col.zipIdx.map (fun p => match p.1 with
    | .fin x => x
    | _ => interp (numbers col) p.2)

/-- A value of the inertial sensor, 0 when it is not finite. -/
def finiteOrZero (value : Flt K) : K :=
  match value with
  | .fin x => x
  | _ => 0

/-- `repair_and_resample` of the samples in a file. -/
def repairAndResample (savgol_filter : List K → List K) (samples : List (RawSample K))
    (target_len : ℕ) (sensor_min : K) : Except String (Window K target_len) :=
  let radar := fun ch => samples.map (fun sample => invalidToNan (sample.radar ch))
  let imu := samples.map (fun sample => finiteOrZero sample.imu)
  let radar := fun ch => fillNan sensor_min (radar ch)
  let radar := fun ch => if 7 ≤ samples.length then savgol_filter (radar ch) else radar ch
  let radar := fun ch => (radar ch).map (fun x => max x sensor_min)
  let old_x := List.ofFn (linspace 0 1 samples.length)
  let new_x := linspace 0 1 target_len
  if old_x.isEmpty then .error "array of sample points is empty"
  else
    let radar_out := fun t ch => interp (old_x.zip (radar ch)) (new_x t)
    let imu_out := fun t => interp (old_x.zip imu) (new_x t)
    .ok (fun t => Fin.append (m := 8) (n := 1) (radar_out t) (fun _ => imu_out t))

/-- What the documentation says of `savgol_filter(x, 7, 2, mode="interp")`: each value is that of
the quadratic least-squares fit to the seven values around it, or near an end to the first or the
last seven. -/
structure IsSavgolFilter (savgol_filter : List K → List K) : Prop where
  length_eq : ∀ x, 7 ≤ x.length → (savgol_filter x).length = x.length
  eval_fit : ∀ (x : List K) (i s : ℕ) (p : K[X]), 7 ≤ x.length → i < x.length →
    s = (if i < 3 then 0 else if x.length - 3 ≤ i then x.length - 7 else i - 3) →
    IsWindowFit x s p → (savgol_filter x)[i]? = some (p.eval ((i : K) - s))

/-! ### The radar channels -/

/-- What is not a number after the first step has no valid value. -/
theorem invalidToNan_eq (value : Flt K) :
  invalidToNan value = orNan (validValue value)
  := by
  cases value with
  | fin x => by_cases h : x ≤ 0 <;> simp [invalidToNan, validValue, orNan, h]
  | _ => rfl

/-- The elements of a column with their indices, after the first step. -/
theorem zipIdx_eq_table (values : List (Flt K)) :
  (values.map invalidToNan).zipIdx
    = table values.length (fun i => (orNan (validAt values i), i))
  := by
  apply eq_table (by simp)
  intro i hi
  rw [List.getElem?_zipIdx, List.getElem?_map, validAt, List.getElem?_eq_getElem hi]
  simp [invalidToNan_eq]

/-- The numbers of a column are the points of its valid values. -/
theorem numbers_eq_knots (values : List (Flt K)) :
  numbers (values.map invalidToNan) = knots (fun i => (i : K)) (validAt values) values.length
  := by
  rw [numbers, zipIdx_eq_table, table, List.filterMap_map, knots, knotsAt]
  congr 1
  funext i
  rw [Function.comp_apply]
  cases validAt values i <;> rfl

/-- A column has no numbers exactly where it has no valid values. -/
theorem all_isNan_iff (values : List (Flt K)) :
  (values.map invalidToNan).all Flt.isNan = true
    ↔ ∀ i, i < values.length → validAt values i = none
  := by
  rw [← all_missing_iff, List.all_map]
  have heq : (Flt.isNan ∘ invalidToNan : Flt K → Bool) = missing := by
    funext value
    rw [Function.comp_apply, invalidToNan_eq, isNan_orNan]
    cases value with
    | fin x => by_cases h : x ≤ 0 <;> simp [missing, validValue, h]
    | _ => rfl
  rw [heq]

variable [IsStrictOrderedRing K]

/-- The repair fills the gaps of a channel. -/
theorem fillNan_eq (sensor_min : K) (values : List (Flt K)) :
  fillNan sensor_min (values.map invalidToNan)
    = table values.length (fillGaps (validAt values) values.length sensor_min)
  := by
  rw [fillNan]
  by_cases hnone : ∀ i, i < values.length → validAt values i = none
  · rw [if_pos ((all_isNan_iff values).mpr hnone)]
    apply eq_table (by simp)
    intro i hi
    rw [List.getElem?_map, List.getElem?_map, List.getElem?_eq_getElem hi,
      fillGaps_of_none hi hnone]
    rfl
  · rw [if_neg (mt (all_isNan_iff values).mp hnone), numbers_eq_knots, zipIdx_eq_table, map_table]
    apply eq_table (length_table _ _)
    intro i hi
    rw [getElem?_table _ hi, Option.some.injEq]
    cases hv : validAt values i with
    | none =>
        push Not at hnone
        obtain ⟨k, hk, hne⟩ := hnone
        apply interp_knots_natCast sensor_min hi ⟨k, hk, hne⟩
    | some y => exact (fillGaps_of_some hi hv).symm

example :
    fillNan (150 : ℚ) [.fin 200, .nan, .nan, .fin 230, .nan] = [200, 210, 220, 230, 230] := by
  decide +kernel

/-! ### The smoothed channels -/

/-- The function that smooths a list of seven or more values by least-squares fits. -/
noncomputable def smooth (x : List K) : List K :=
  table x.length (savgol (fun i => x.getD i 0) x.length)

/-- It is what the documentation says. -/
theorem isSavgolFilter_smooth :
  IsSavgolFilter (smooth (K := K))
  := by
  constructor
  · intro x _
    apply length_table
  · intro x i s p hn hi hs hp
    obtain rfl : s = fitStart x.length i := hs.trans (fitStart_eq _ _).symm
    rw [smooth, getElem?_table _ hi, hp.savgol_eq hn hi]

/-- The smoothing computes the values of the fits. -/
theorem IsSavgolFilter.eq_smooth {savgol_filter : List K → List K}
    (h : IsSavgolFilter savgol_filter) {x : List K} (hn : 7 ≤ x.length) :
  savgol_filter x = smooth x
  := by
  apply eq_table (h.length_eq x hn)
  intro i hi
  have hp : IsWindowFit x (fitStart x.length i) (leastSquaresFit (Finset.range 7)
      (fun j => (j : K)) (fun j => x.getD (fitStart x.length i + j) 0) 2) :=
    isReproducing_quadraticKernel.isLeastSquaresFit _
  rw [hp.savgol_eq hn hi]
  apply h.eval_fit x i (fitStart x.length i) _ hn hi (fitStart_eq _ _) hp

/-- The smoothing of the values of a sequence. -/
theorem smooth_table (f : ℕ → K) (n : ℕ) :
  smooth (table n f) = table n (savgol f n)
  := by
  rw [smooth]
  apply eq_table (by simp)
  intro i hi
  rw [getElem?_table _ (by simpa using hi), Option.some.injEq, length_table]
  apply savgol_congr _ hi
  intro j hj
  rw [List.getD_eq_getElem?_getD, getElem?_table _ hj, Option.getD_some]

/-- A radar channel that is repaired, smoothed if it has seven values, and clamped. -/
theorem radarChannel_eq {savgol_filter : List K → List K} (h : IsSavgolFilter savgol_filter)
    (sensor_min : K) (values : List (Flt K)) :
  (if 7 ≤ values.length then savgol_filter (fillNan sensor_min (values.map invalidToNan))
      else fillNan sensor_min (values.map invalidToNan)).map (fun x => max x sensor_min)
    = table values.length (Preprocessor.radarReference sensor_min values)
  := by
  rw [fillNan_eq]
  split
  · rename_i hn
    rw [h.eq_smooth (by simpa using hn), smooth_table, map_table]
    rfl
  · rename_i hn
    rw [map_table]
    apply eq_table (length_table _ _)
    intro i hi
    rw [getElem?_table _ hi, Preprocessor.radarReference, savgol, if_pos (by omega)]

/-! ### The interpolated columns -/

/-- Interpolation through the values of a sequence at equidistant points. -/
theorem interp_linspace [FloorSemiring K] (f : ℕ → K) {n m : ℕ} (hn : 0 < n) (t : Fin m) :
  interp ((List.ofFn (linspace 0 1 n)).zip (table n f)) (linspace 0 1 m t)
    = piecewiseLinear f ((t : ℕ) * (n - 1 : ℕ) / (m - 1 : ℕ))
  := by
  have hlinspace : ∀ (num : ℕ) (i : Fin num),
      linspace (0 : K) 1 num i = (i : ℕ) / (num - 1 : ℕ) := by
    intro num i
    rw [linspace, sub_zero, zero_add, mul_one_div]
  have hpoints : (List.ofFn (linspace (0 : K) 1 n)).zip (table n f)
      = knots (fun i => (i : K) / (n - 1 : ℕ)) (fun i => some (f i)) n := by
    have hofFn : List.ofFn (linspace (0 : K) 1 n) = table n (fun i => (i : K) / (n - 1 : ℕ)) := by
      apply eq_table (by simp)
      intro i hi
      rw [List.getElem?_ofFn, dif_pos hi, hlinspace]
    rw [hofFn, table, table, List.zip_map', knots, knotsAt, ← List.filterMap_eq_map]
    rfl
  have ht : (t : ℕ) ≤ m - 1 := by omega
  have ht' : ((t : ℕ) : K) ≤ (m - 1 : ℕ) := Nat.cast_le.mpr ht
  rw [hpoints, hlinspace, interp_knots_div f hn, div_mul_eq_mul_div]
  · apply div_nonneg (Nat.cast_nonneg _) (Nat.cast_nonneg _)
  · apply div_le_one_of_le₀ ht' (Nat.cast_nonneg _)

/-- The preprocessing of the training script, in exact arithmetic, computes the reference. -/
theorem repairAndResample_eq [FloorSemiring K] {savgol_filter : List K → List K}
    (h : IsSavgolFilter savgol_filter) {samples : List (RawSample K)} (hne : samples ≠ [])
    (sensor_min : K) :
  repairAndResample savgol_filter samples kTargetLength sensor_min
    = .ok (fun t => Fin.append (m := 8) (n := 1)
      (fun ch => Preprocessor.repairAndResample sensor_min samples ch t)
      (fun _ => Preprocessor.sanitizeAndResample samples t))
  := by
  have hpos : 0 < samples.length := List.length_pos_iff.mpr hne
  have hold : (List.ofFn (linspace (0 : K) 1 samples.length)).isEmpty = false := by
    rw [List.isEmpty_eq_false_iff, ne_eq, List.ofFn_eq_nil_iff]
    omega
  have hradar : ∀ ch, (if 7 ≤ samples.length then
        savgol_filter (fillNan sensor_min
          (samples.map (fun sample => invalidToNan (sample.radar ch))))
      else fillNan sensor_min (samples.map (fun sample => invalidToNan (sample.radar ch)))).map
        (fun x => max x sensor_min)
      = table samples.length (Preprocessor.radarReference sensor_min
        (samples.map (fun sample => sample.radar ch))) := by
    intro ch
    have hchannel := radarChannel_eq h sensor_min (samples.map (fun sample => sample.radar ch))
    rw [List.length_map, List.map_map] at hchannel
    apply hchannel
  have himu : samples.map (fun sample => finiteOrZero sample.imu)
      = table samples.length (imuAt (samples.map (fun sample => sample.imu))) := by
    apply eq_table (by simp)
    intro i hi
    rw [List.getElem?_map, imuAt, List.getElem?_map, List.getElem?_eq_getElem hi]
    simp only [Option.map_some, finiteOrZero, Option.some.injEq]
    cases samples[i].imu <;> rfl
  simp only [repairAndResample, hold, Bool.false_eq_true, if_false, himu, interp_linspace _ hpos]
  congr 1
  funext t
  congr 1
  funext ch
  rw [hradar ch, interp_linspace _ hpos]
  rfl

/-- In exact arithmetic the preprocessor of the pipeline succeeds where the training script does,
with the same values. -/
theorem exists_repairAndResample [FloorSemiring K] {savgol_filter : List K → List K}
    (h : IsSavgolFilter savgol_filter) {samples : List (RawSample K)} (hne : samples ≠ [])
    (sensor_min : K) (output : ModelInput K) (report : Option PreprocessReport) :
  ∃ x r X, Preprocessor.run (Rounding.exact K) ⟨.fin sensor_min⟩ samples output report
      = some (.success, x, r)
    ∧ repairAndResample savgol_filter samples kTargetLength sensor_min = .ok X
    ∧ ∀ t c, x.get t c = .fin (X t c)
  := by
  obtain ⟨x, hx, hrows⟩ := Preprocessor.run_exact sensor_min hne output report
  refine ⟨x, _, _, hx, repairAndResample_eq h hne sensor_min, ?_⟩
  intro t c
  rcases Preprocessor.column_cases c with ⟨ch, rfl⟩ | rfl
  · apply ((hrows t).1 ch).trans
    rw [Flt.fin.injEq]
    symm
    apply Fin.append_left (m := 8) (n := 1)
  · apply (hrows t).2.trans
    rw [Flt.fin.injEq]
    symm
    apply Fin.append_right (m := 8) (n := 1) _ _ 0

end NetTraining
