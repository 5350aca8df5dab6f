import PipeAI.Numeric.Standardize
import Mathlib.Data.Fin.Tuple.Basic
import Mathlib.Data.List.FinRange

/-!
# The training statistics

`compute_training_stats` computes the means and standard deviations of the channels of the
training set: of the radar channels, of their first and second differences along the rows, and of
the inertial sensor.  `make_temporal_features` computes the same differences, and normalizes the
channels by these statistics.

The two compute the differences in different ways: one repeats the first row before taking
differences, the other puts zeros before the differences.  They agree (`diff_prepend_first`); so
the features of the training set are its standardized channels (`normalizedFeatures_eq`).

The arithmetic is exact.  The square root and the percentile are parameters, and the number of
rows is `T + 1`.
-/

universe u

open scoped BigOperators

namespace NetTraining

/-! ### Arrays -/

/-- An array of shape `[N, T, C]`. -/
abbrev Tensor (K : Type u) (N T C : ℕ) : Type u :=
  Fin N → Fin T → Fin C → K

variable {K : Type u} {N T C : ℕ}

/-- The array without its first row. -/
def dropFirst (x : Tensor K N (T + 1) C) : Tensor K N T C :=
  fun n t => x n t.succ

/-- The array without its last row. -/
def dropLast (x : Tensor K N (T + 1) C) : Tensor K N T C :=
  fun n t => x n t.castSucc

/-- The concatenation of one row and the rows of an array. -/
def prependRow (row : Fin N → Fin C → K) (x : Tensor K N T C) : Tensor K N (T + 1) C :=
  fun n => Fin.cons (row n) (x n)

/-- The concatenation of the channels of two arrays. -/
def appendChannels {D : ℕ} (x : Tensor K N T C) (y : Tensor K N T D) : Tensor K N T (C + D) :=
  fun n t => Fin.append (x n t) (y n t)

/-- The values of a channel. -/
def channel (x : Tensor K N T C) (c : Fin C) : Fin N × Fin T → K :=
  fun p => x p.1 p.2 c

variable [Field K]

/-- `np.diff` along the rows. -/
def diff (x : Tensor K N (T + 1) C) : Tensor K N T C :=
  fun n t c => x n t.succ c - x n t.castSucc c

/-- `np.linspace`. -/
def linspace (start stop : K) (num : ℕ) : Fin num → K :=
  fun i => start + (i : ℕ) * ((stop - start) / ((num - 1 : ℕ) : K))

/-- The mean of the values of an array of shape `[N, T]`. -/
def mean (f : Fin N × Fin T → K) : K :=
  (∑ p, f p) / ((N * T : ℕ) : K)

/-- The standard deviation of the values of an array of shape `[N, T]`. -/
def std (sqrt : K → K) (f : Fin N × Fin T → K) : K :=
  sqrt (mean (fun p => (f p - mean f) ^ 2))

/-! ### The statistics -/

/-- `CLASSES`. -/
inductive PipeClass where
  | normal
  | collapse
  | bulge
  | flip
  | torsion
  deriving DecidableEq

/-- The string of a class. -/
def PipeClass.name : PipeClass → String
  | .normal => "normal"
  | .collapse => "collapse"
  | .bulge => "bulge"
  | .flip => "flip"
  | .torsion => "torsion"

/-- The list `CLASSES`. -/
def classes : List PipeClass :=
  [.normal, .collapse, .bulge, .flip, .torsion]

/-- A preprocessed file. -/
abbrev Window (K : Type u) (T : ℕ) : Type u :=
  Fin T → Fin 9 → K

/-- The preprocessed files of the training set, by class. -/
abbrev TrainingSet (K : Type u) (T : ℕ) : Type u :=
  PipeClass → List (Window K T)

/-- `all_train`, before it is stacked. -/
def allTrain (train : TrainingSet K T) : List (Window K T) :=
  classes.flatMap train

/-- `normal_train`, before it is stacked. -/
def normalTrain (train : TrainingSet K T) : List (Window K T) :=
  classes.flatMap (fun cls => if cls = .normal then train cls else [])

omit [Field K] in
/-- The normal windows are those of the first class. -/
theorem normalTrain_eq (train : TrainingSet K T) :
  normalTrain train = train .normal
  := by
  simp [normalTrain, classes]

/-- `np.stack`. -/
def stack (windows : List (Window K T)) : Tensor K windows.length T 9 :=
  fun n => windows.get n

/-- The radar channels `x[:, :, :8]`. -/
def radarOf (x : Tensor K N T 9) : Tensor K N T 8 :=
  fun n t c => x n t (Fin.castAdd 1 c)

/-- The inertial sensor `x[:, :, 8:9]`. -/
def imuOf (x : Tensor K N T 9) : Tensor K N T 1 :=
  fun n t c => x n t (Fin.natAdd 8 c)

/-- The statistics. -/
structure Stats (K : Type u) where
  baseline : Fin 8 → K
  deform_scale : Fin 8 → K
  radar_mean : Fin 8 → K
  radar_std : Fin 8 → K
  diff1_mean : Fin 8 → K
  diff1_std : Fin 8 → K
  diff2_mean : Fin 8 → K
  diff2_std : Fin 8 → K
  imu_mean : Fin 1 → K
  imu_std : Fin 1 → K

/-- `compute_training_stats`. -/
def computeTrainingStats [LinearOrder K] (sqrt : K → K)
    (percentile : {N T : ℕ} → (Fin N × Fin T → K) → ℕ → K) (train : TrainingSet K (T + 1)) :
    Except String (Stats K) :=
  if (allTrain train).isEmpty ∨ (normalTrain train).isEmpty then
    .error "Training or normal training samples are empty."
  else
    let radar := radarOf (stack (allTrain train))
    let imu := imuOf (stack (allTrain train))
    let baseline := fun c => mean (channel (radarOf (stack (normalTrain train))) c)
    let deformation := fun n t c => radar n t c - baseline c
    let diff1 := diff (prependRow (fun n => radar n 0) radar)
    let diff2 := diff (prependRow (fun n => diff1 n 0) diff1)
    .ok
      { baseline := baseline
        deform_scale := fun c =>
          max (percentile (channel (fun n t c => |deformation n t c|) c) 99) 1
        radar_mean := fun c => mean (channel radar c)
        radar_std := fun c => max (std sqrt (channel radar c)) (1 / 10 ^ 3)
        diff1_mean := fun c => mean (channel diff1 c)
        diff1_std := fun c => max (std sqrt (channel diff1 c)) (1 / 10 ^ 3)
        diff2_mean := fun c => mean (channel diff2 c)
        diff2_std := fun c => max (std sqrt (channel diff2 c)) (1 / 10 ^ 3)
        imu_mean := fun c => mean (channel imu c)
        imu_std := fun c => max (std sqrt (channel imu c)) (1 / 10 ^ 6) }

/-! ### The features -/

/-- The normalization of channels by means and standard deviations. -/
def normalize (x : Tensor K N T C) (m s : Fin C → K) : Tensor K N T C :=
  fun n t c => (x n t c - m c) / s c

/-- The features that `make_temporal_features` clamps, before they are transposed. -/
def normalizedFeatures (stats : Stats K) (radar : Tensor K N (T + 1) 8)
    (imu : Tensor K N (T + 1) 1) : Tensor K N (T + 1) 25 :=
  let d1 := prependRow (fun _ _ => 0) (fun n t c => dropFirst radar n t c - dropLast radar n t c)
  let d2 := prependRow (fun _ _ => 0) (fun n t c => dropFirst d1 n t c - dropLast d1 n t c)
  let r := normalize radar stats.radar_mean stats.radar_std
  let d1 := normalize d1 stats.diff1_mean stats.diff1_std
  let d2 := normalize d2 stats.diff2_mean stats.diff2_std
  let im := normalize imu stats.imu_mean stats.imu_std
  appendChannels (appendChannels (appendChannels r d1) d2) im

/-- `make_temporal_features`. -/
def makeTemporalFeatures [LinearOrder K] (stats : Stats K) (radar : Tensor K N (T + 1) 8)
    (imu : Tensor K N (T + 1) 1) : Fin N → Fin 25 → Fin (T + 1) → K :=
  fun n c t => min (max (normalizedFeatures stats radar imu n t c) (-(6 : ℕ))) (6 : ℕ)

/-- The features lie between the bounds of the clamp. -/
theorem makeTemporalFeatures_mem [LinearOrder K] [IsStrictOrderedRing K] (stats : Stats K)
    (radar : Tensor K N (T + 1) 8) (imu : Tensor K N (T + 1) 1) (n : Fin N) (c : Fin 25)
    (t : Fin (T + 1)) :
  -6 ≤ makeTemporalFeatures stats radar imu n c t ∧ makeTemporalFeatures stats radar imu n c t ≤ 6
  := by
  constructor
  · apply le_min (le_max_right _ _)
    apply neg_le_self
    positivity
  · apply min_le_right

/-! ### Differences -/

/-- The differences along the rows are the same whether the first row is repeated before them, or
zeros are put before them. -/
theorem diff_prepend_first (x : Tensor K N (T + 1) C) :
  diff (prependRow (fun n => x n 0) x)
    = prependRow (fun _ _ => 0) (fun n t c => dropFirst x n t c - dropLast x n t c)
  := by
  funext n t c
  refine Fin.cases ?_ (fun t => ?_) t
  · simp [diff, prependRow]
  · simp only [diff, prependRow, dropFirst, dropLast, Fin.cons_succ]
    rw [← Fin.succ_castSucc, Fin.cons_succ]

/-- The channels that the features normalize: the radar channels, their first and second
differences, and the inertial sensor. -/
def features (x : Tensor K N (T + 1) 9) : Tensor K N (T + 1) 25 :=
  let diff1 := diff (prependRow (fun n => radarOf x n 0) (radarOf x))
  let diff2 := diff (prependRow (fun n => diff1 n 0) diff1)
  appendChannels (appendChannels (appendChannels (radarOf x) diff1) diff2) (imuOf x)

omit [Field K] in
@[simp]
theorem channel_append_left {D : ℕ} (x : Tensor K N T C) (y : Tensor K N T D) (c : Fin C) :
  channel (appendChannels x y) (Fin.castAdd D c) = channel x c
  := by
  funext p
  rw [channel, appendChannels, Fin.append_left, channel]

omit [Field K] in
@[simp]
theorem channel_append_right {D : ℕ} (x : Tensor K N T C) (y : Tensor K N T D) (d : Fin D) :
  channel (appendChannels x y) (Fin.natAdd C d) = channel y d
  := by
  funext p
  rw [channel, appendChannels, Fin.append_right, channel]

/-- The floor of the standard deviation of a feature. -/
def stdFloor (K : Type u) [Field K] (c : Fin 25) : K :=
  if (c : ℕ) < 24 then 1 / 10 ^ 3 else 1 / 10 ^ 6

theorem stdFloor_castAdd (c : Fin 24) :
  stdFloor K (Fin.castAdd 1 c) = 1 / 10 ^ 3
  := if_pos c.isLt

theorem stdFloor_natAdd (c : Fin 1) :
  stdFloor K (Fin.natAdd 24 c) = 1 / 10 ^ 6
  := if_neg (by simp)

/-- A feature is of a radar channel, of a first or second difference, or of the inertial
sensor. -/
theorem feature_cases {P : Fin 25 → Prop}
    (radar : ∀ c : Fin 8, P (Fin.castAdd 1 (Fin.castAdd 8 (Fin.castAdd 8 c))))
    (diff1 : ∀ c : Fin 8, P (Fin.castAdd 1 (Fin.castAdd 8 (Fin.natAdd 8 c))))
    (diff2 : ∀ c : Fin 8, P (Fin.castAdd 1 (Fin.natAdd 16 c)))
    (imu : ∀ c : Fin 1, P (Fin.natAdd 24 c)) (c : Fin 25) :
  P c
  := by
  refine Fin.addCases (m := 24) (n := 1) (fun c => ?_) imu c
  refine Fin.addCases (m := 16) (n := 8) (fun c => ?_) diff2 c
  exact Fin.addCases (m := 8) (n := 8) radar diff1 c

variable [LinearOrder K]

/-- The features of the training set are its channels, normalized by their means and by their
standard deviations, with the floors. -/
theorem normalizedFeatures_eq {sqrt : K → K}
    {percentile : {N T : ℕ} → (Fin N × Fin T → K) → ℕ → K} {train : TrainingSet K (T + 1)}
    {stats : Stats K} (h : computeTrainingStats sqrt percentile train = .ok stats) (c : Fin 25) :
  let x := stack (allTrain train)
  channel (normalizedFeatures stats (radarOf x) (imuOf x)) c
    = fun p => (channel (features x) c p - mean (channel (features x) c))
        / max (std sqrt (channel (features x) c)) (stdFloor K c)
  := by
  intro x
  rw [computeTrainingStats] at h
  split at h
  · cases h
  · cases h
    rw [normalizedFeatures, features]
    simp only [← diff_prepend_first]
    induction c using feature_cases with
    | radar c =>
        rw [channel_append_left, channel_append_left, channel_append_left, channel_append_left,
          channel_append_left, channel_append_left, stdFloor_castAdd]
        rfl
    | diff1 c =>
        rw [channel_append_left, channel_append_left, channel_append_right, channel_append_left,
          channel_append_left, channel_append_right, stdFloor_castAdd]
        rfl
    | diff2 c =>
        rw [channel_append_left, channel_append_right, channel_append_left, channel_append_right,
          stdFloor_castAdd]
        rfl
    | imu c =>
        rw [channel_append_right, channel_append_right, stdFloor_natAdd]
        rfl

/-! ### The features of the training set -/

/-- The mean over the windows and the rows. -/
theorem mean_eq_expect (f : Fin N × Fin T → ℝ) :
  mean f = 𝔼 p, f p
  := by
  rw [mean, Fintype.expect_eq_sum_div_card, Fintype.card_prod, Fintype.card_fin, Fintype.card_fin]

/-- The standard deviation over the windows and the rows. -/
theorem std_eq_standardDeviation (f : Fin N × Fin T → ℝ) :
  std Real.sqrt f = standardDeviation f
  := by
  rw [std, standardDeviation]
  simp only [mean_eq_expect]

/-- When there are normal windows, then the statistics of the training set are computed.  The
features of the training set, normalized by its statistics, have mean zero and mean square at most
one in each channel; and the mean square is one when the standard deviation of the channel is not
below its floor. -/
theorem features_standardized (percentile : {N T : ℕ} → (Fin N × Fin T → ℝ) → ℕ → ℝ)
    (train : TrainingSet ℝ (T + 1)) :
  (train .normal ≠ [] → ∃ stats, computeTrainingStats Real.sqrt percentile train = .ok stats)
    ∧ ∀ stats, computeTrainingStats Real.sqrt percentile train = .ok stats →
        let x := stack (allTrain train)
        let y := normalizedFeatures stats (radarOf x) (imuOf x)
        ∀ c, mean (channel y c) = 0 ∧ mean (fun p => channel y c p ^ 2) ≤ 1
          ∧ (stdFloor ℝ c ≤ std Real.sqrt (channel (features x) c) →
              mean (fun p => channel y c p ^ 2) = 1)
  := by
  constructor
  · intro hnormal
    have hall : allTrain train ≠ [] := by
      intro hnil
      rw [allTrain, List.flatMap_eq_nil_iff] at hnil
      apply hnormal (hnil .normal (by decide))
    rw [computeTrainingStats, if_neg]
    · exact ⟨_, rfl⟩
    · rw [normalTrain_eq, List.isEmpty_iff, List.isEmpty_iff, not_or]
      exact ⟨hall, hnormal⟩
  · intro stats h x y c
    have hne : allTrain train ≠ [] := by
      intro hnil
      rw [computeTrainingStats, if_pos (.inl (List.isEmpty_iff.mpr hnil))] at h
      cases h
    have : Nonempty (Fin (allTrain train).length) := ⟨⟨0, List.length_pos_iff.mpr hne⟩⟩
    have hfloor : 0 < stdFloor ℝ c := by
      rw [stdFloor]
      split <;> positivity
    have hy : channel y c = standardize (channel (features x) c)
        (max (standardDeviation (channel (features x) c)) (stdFloor ℝ c)) := by
      rw [normalizedFeatures_eq h, std_eq_standardDeviation, mean_eq_expect]
      rfl
    rw [hy, mean_eq_expect, mean_eq_expect, std_eq_standardDeviation]
    refine ⟨expect_standardize _ _, expect_standardize_sq_le_one _ hfloor, fun hstd => ?_⟩
    apply expect_standardize_sq_eq_one _ hfloor hstd

/-- One normal window of two rows has statistics, and features of mean zero. -/
theorem features_standardized_two :
  ∃ (train : TrainingSet ℝ 2) (stats : Stats ℝ),
    computeTrainingStats Real.sqrt (fun _ _ => 1) train = .ok stats
      ∧ ∀ c, mean (channel (normalizedFeatures stats (radarOf (stack (allTrain train)))
          (imuOf (stack (allTrain train)))) c) = 0
  := by
  let train : TrainingSet ℝ 2 := fun cls => if cls = .normal then [fun t _ => (t : ℕ)] else []
  obtain ⟨hstats, hfeatures⟩ := features_standardized (T := 1) (fun _ _ => 1) train
  obtain ⟨stats, hstats⟩ := hstats (by simp [train])
  use train, stats, hstats
  intro c
  apply (hfeatures stats hstats c).1

end NetTraining
