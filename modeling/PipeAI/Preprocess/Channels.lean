import PipeAI.Preprocess.Preprocessor
import Mathlib.Data.List.ProdSigma

/-!
# The preprocessor, channel by channel

The stages of the preprocessor work on one channel at a time.  A column of the tensor holds the
values that these stages compute from the channel of that column (`radarOutput`, `imuOutput`),
whatever the tensor held before and whatever the other channels are (`run_eq_channelOutput`).

The report counts the missing values over all samples and channels; the counts summed up channel
by channel are those over all pairs (`reportOn_repairStats`).
-/

universe u v

/-! ### Counting pairs -/

section Counting

variable {α : Type u} {β : Type v}

/-- The number of the elements with a property, as a sum. -/
theorem sum_map_ite_eq_countP (l : List α) (p : α → Bool) :
  (l.map (fun a => if p a then 1 else 0)).sum = l.countP p
  := by
  induction l with
  | nil => rfl
  | cons a l ih =>
      rw [List.map_cons, List.sum_cons, ih, List.countP_cons, Nat.add_comm]

/-- The number of the pairs with a property, counted for each second element. -/
theorem countP_product (l : List α) (m : List β) (p : α × β → Bool) :
  (l ×ˢ m).countP p = (m.map (fun b => l.countP (fun a => p (a, b)))).sum
  := by
  induction l with
  | nil => simp
  | cons a l ih =>
      simp only [List.product_cons, List.countP_append, List.countP_map, List.countP_cons,
        List.sum_map_add]
      rw [ih, sum_map_ite_eq_countP m (fun b => p (a, b)), Nat.add_comm]
      rfl

end Counting

variable {K : Type u} [Field K] [LinearOrder K]

/-! ### The statistics -/

/-- The statistics of a channel, whatever the conversions do. -/
theorem repairRadarChannel_stats (R : Rounding K) {values repaired : List (Flt K)}
    {sensor_min : Flt K} {stats : RadarRepairStats}
    (h : repairRadarChannel R values sensor_min = some (stats, repaired)) :
  stats = repairStats values
  := by
  rw [repairRadarChannel] at h
  by_cases hempty : values.isEmpty
  · rw [if_pos hempty] at h
    cases h
    rw [List.isEmpty_iff.mp hempty]
    rfl
  · have hall : firstValid (markMissing values) = (markMissing values).length
        ↔ values.all missing = true := by
      rw [firstValid, List.findIdx_eq_length, List.all_eq_true]
      simp only [markMissing, List.forall_mem_map]
      apply forall₂_congr
      intro value _
      rw [orNan_validValue, isNan_orNan]
      cases value with
      | fin x => by_cases hx : x ≤ 0 <;> simp [validValue, missing, hx]
      | _ => simp [validValue, missing, Flt.isFinite]
    rw [if_neg hempty] at h
    rw [repairStats, Bool.eq_false_of_not_eq_true hempty, Bool.not_false, Bool.true_and]
    by_cases hfirst : firstValid (markMissing values) = (markMissing values).length
    · simp only [if_pos hfirst] at h
      cases h
      rw [hall.mp hfirst]
    · simp only [if_neg hfirst] at h
      rw [Bool.eq_false_of_not_eq_true (fun hmissing => hfirst (hall.mpr hmissing))]
      split at h
      · cases h
      · rw [Option.map_eq_some_iff] at h
        obtain ⟨_, -, heq⟩ := h
        cases heq
        rfl

namespace Preprocessor

/-- The report on samples: the pairs of a sample and a radar channel whose value is not finite or
not positive, the values of the inertial sensor that are not finite, and the radar channels all
of whose values are not finite or not positive. -/
def exactReport (samples : List (RawSample K)) : PreprocessReport where
  source_samples := samples.length
  radar_invalid_values := (samples ×ˢ List.finRange kRadarChannels).countP
    (fun p => !(p.1.radar p.2).isFinite || (p.1.radar p.2).le (.fin 0))
  imu_nonfinite_values := samples.countP (fun sample => !sample.imu.isFinite)
  all_invalid_radar_channels := (List.finRange kRadarChannels).countP
    (fun ch => samples.all
      (fun sample => !(sample.radar ch).isFinite || (sample.radar ch).le (.fin 0)))
  savgol_applied := decide (7 ≤ samples.length)

/-- The counts summed up over the channels are those over all pairs. -/
theorem reportOn_repairStats {samples : List (RawSample K)} (h : samples ≠ []) :
  reportOn samples (fun ch => repairStats (samples.map (fun sample => sample.radar ch)))
    = exactReport samples
  := by
  have hempty : samples.isEmpty = false := by simpa using h
  rw [reportOn, exactReport, countP_product, ← sum_map_ite_eq_countP (List.finRange kRadarChannels),
    ← Fin.sum_univ_def, ← Fin.sum_univ_def, sanitizeImu]
  simp only [repairStats, List.countP_map, List.all_map, List.isEmpty_map, hempty,
    Bool.not_false, Bool.true_and]
  rfl

/-! ### The columns -/

/-- A channel smoothed, where there are at least seven samples. -/
def smoothChannel (R : Rounding K) (size : ℕ) (channel : List (Flt K)) : Option (List (Flt K)) :=
  if 7 ≤ size then savgol72Interp R channel else some channel

/-- The values computed from a radar channel: repaired, smoothed, clamped and resampled. -/
def radarOutput (R : Rounding K) (sensor_min : Flt K) (values : List (Flt K)) :
    Option (List (Flt K)) :=
  (repairRadarChannel R values sensor_min).bind (fun repaired =>
    (smoothChannel R values.length repaired.2).bind (fun channel =>
      (resampleLinearNormalized R (channel.map (fun value => Flt.max value sensor_min))
        kTargetLength []).map Prod.snd))

/-- The values computed from the inertial sensor: sanitized and resampled. -/
def imuOutput (R : Rounding K) (values : List (Flt K)) : Option (List (Flt K)) :=
  (resampleLinearNormalized R (sanitizeImu values).2 kTargetLength []).map Prod.snd

/-- The values computed from a channel. -/
def channelOutput (R : Rounding K) (sensor_min : Flt K) (c : Fin kInputChannels)
    (values : List (Flt K)) : Option (List (Flt K)) :=
  if (c : ℕ) < kRadarChannels then radarOutput R sensor_min values else imuOutput R values

omit [Field K] [LinearOrder K] in
@[simp]
theorem channel_radarColumn (sample : RawSample K) (ch : Fin kRadarChannels) :
  sample.channel (radarColumn ch) = sample.radar ch
  := dif_pos ch.isLt

omit [Field K] [LinearOrder K] in
@[simp]
theorem channel_imuColumn (sample : RawSample K) :
  sample.channel imuColumn = sample.imu
  := dif_neg (lt_irrefl kRadarChannels)

@[simp]
theorem channelOutput_radarColumn (R : Rounding K) (sensor_min : Flt K) (ch : Fin kRadarChannels)
    (values : List (Flt K)) :
  channelOutput R sensor_min (radarColumn ch) values = radarOutput R sensor_min values
  := if_pos ch.isLt

@[simp]
theorem channelOutput_imuColumn (R : Rounding K) (sensor_min : Flt K) (values : List (Flt K)) :
  channelOutput R sensor_min imuColumn values = imuOutput R values
  := if_neg (lt_irrefl kRadarChannels)

/-- A channel is repaired, with the counts of its values, to one of the same length. -/
theorem exists_repaired (R : Rounding K) (values : List (Flt K)) (sensor_min : Flt K) :
  ∃ channel, repairRadarChannel R values sensor_min = some (repairStats values, channel)
    ∧ channel.length = values.length
  := by
  obtain ⟨stats, channel, hch, hlen⟩ := repairRadarChannel_isSome R values sensor_min
  rw [repairRadarChannel_stats R hch] at hch
  exact ⟨channel, hch, hlen⟩

/-- What a repaired and smoothed channel is resampled to is what is computed from the channel,
whatever the output held before. -/
theorem exists_radarOutput (R : Rounding K) {sensor_min : Flt K} {values channel : List (Flt K)}
    {stats : RadarRepairStats} {repaired : List (Flt K)}
    (hrepair : repairRadarChannel R values sensor_min = some (stats, repaired))
    (hsmooth : smoothChannel R values.length repaired = some channel) (hne : channel ≠ [])
    (out : List (Flt K)) :
  ∃ out', resampleLinearNormalized R (channel.map (fun value => Flt.max value sensor_min))
      kTargetLength out = some (.success, out')
    ∧ out'.length = kTargetLength ∧ radarOutput R sensor_min values = some out'
  := by
  have hclamp : channel.map (fun value => Flt.max value sensor_min) ≠ [] := by simpa using hne
  obtain ⟨g, hg⟩ := resampleLinearNormalized_table R hclamp (by decide : 0 < kTargetLength)
  refine ⟨_, hg out, length_table _ _, ?_⟩
  rw [radarOutput, hrepair, Option.bind_some, hsmooth, Option.bind_some, hg, Option.map_some]

/-- The preprocessor succeeds on samples that are not empty, with a finite `sensor_min`.  Each
column of the tensor holds the values computed from its channel, and the report is exact. -/
theorem run_eq_channelOutput (R : Rounding K) {options : PreprocessOptions K}
    {samples : List (RawSample K)} (hsamples : samples ≠ [])
    (hmin : options.sensor_min.isFinite = true)
    (output : ModelInput K) (report : Option PreprocessReport) :
  ∃ output', run R options samples output report
      = some (.success, output', report.map (fun _ => exactReport samples))
    ∧ ∀ c, ∃ out, channelOutput R options.sensor_min c
        (samples.map (fun sample => sample.channel c)) = some out
      ∧ ∀ t : Fin kTargetLength, out[(t : ℕ)]? = some (output'.get t c)
  := by
  have hpos : 0 < samples.length := List.length_pos_iff.mpr hsamples
  have hne : ∀ channel : List (Flt K), channel.length = samples.length → channel ≠ [] := by
    intro channel hlen
    rw [← List.length_pos_iff, hlen]
    apply hpos
  obtain ⟨g, hg⟩ := resampleLinearNormalized_table R
    (hne (sanitizeImu (samples.map (fun sample => sample.imu))).2 (by simp [sanitizeImu]))
    (by decide : 0 < kTargetLength)
  obtain ⟨output', hrun, radar_out, imu_out, hradar, himu, hrows⟩ := run_spec R options hsamples
    hmin output report (fun ch => repairStats (samples.map (fun sample => sample.radar ch)))
    (P := fun ch channel => channel.length = samples.length
      ∧ repairRadarChannel R (samples.map (fun sample => sample.radar ch)) options.sensor_min
        = some (repairStats (samples.map (fun sample => sample.radar ch)), channel))
    (Q := fun ch channel => channel.length = samples.length
      ∧ ∃ repaired, repairRadarChannel R (samples.map (fun sample => sample.radar ch))
          options.sensor_min
          = some (repairStats (samples.map (fun sample => sample.radar ch)), repaired)
        ∧ smoothChannel R samples.length repaired = some channel)
    (S := fun ch out => out.length = kTargetLength
      ∧ radarOutput R options.sensor_min (samples.map (fun sample => sample.radar ch)) = some out)
    (T := fun out => out.length = kTargetLength
      ∧ imuOutput R (samples.map (fun sample => sample.imu)) = some out)
    (by
      intro ch
      obtain ⟨channel, hch, hlen⟩ := exists_repaired R
        (samples.map (fun sample => sample.radar ch)) options.sensor_min
      rw [List.length_map] at hlen
      exact ⟨channel, hch, hlen, hch⟩)
    (by
      rintro ch channel ⟨hlen, hch⟩
      simp only [smoothChannel]
      split
      · obtain ⟨channel', hsavgol, hlen'⟩ := savgol72Interp_isSome R channel
        exact ⟨channel', hsavgol, hlen'.trans hlen, channel, hch, hsavgol⟩
      · exact ⟨hlen, channel, hch, rfl⟩)
    (by
      rintro ch channel out ⟨hlen, repaired, hch, hsmooth⟩
      rw [← List.length_map (fun sample : RawSample K => sample.radar ch)] at hsmooth
      apply exists_radarOutput R hch hsmooth (hne channel hlen) out)
    ⟨_, hg [], length_table _ _, by rw [imuOutput, hg, Option.map_some]⟩
    (fun _ _ h => h.1) (fun _ h => h.1)
  use output'
  rw [hrun, reportOn_repairStats hsamples]
  refine ⟨rfl, ?_⟩
  intro c
  rcases column_cases c with ⟨ch, rfl⟩ | rfl
  · use radar_out ch
    simp only [channelOutput_radarColumn, channel_radarColumn]
    exact ⟨(hradar ch).2, fun t => (hrows t).1 ch⟩
  · use imu_out
    simp only [channelOutput_imuColumn, channel_imuColumn]
    exact ⟨himu.2, fun t => (hrows t).2⟩

/-- The preprocessor is all or nothing.  It fails where there are no samples or `sensor_min` is not
finite, and then changes nothing.  Otherwise it succeeds with a tensor that the samples and
`sensor_min` determine, whatever was there before, with columns that their channels determine;
and the report is exact. -/
theorem run_all_or_nothing (R : Rounding K) (options : PreprocessOptions K)
    (samples : List (RawSample K)) :
  (samples = [] ∨ options.sensor_min.isFinite = false →
      ∃ status : Status, status.ok = false
        ∧ ∀ output report, run R options samples output report = some (status, output, report))
    ∧ (samples ≠ [] → options.sensor_min.isFinite = true →
      ∃ output',
        (∀ output report, run R options samples output report
          = some (.success, output', report.map (fun _ => exactReport samples)))
        ∧ ∀ c samples' output report output'' report'',
          samples'.map (fun sample => sample.channel c)
            = samples.map (fun sample => sample.channel c) →
          run R options samples' output report = some (.success, output'', report'') →
          ∀ t, output''.get t c = output'.get t c)
  := by
  have hempty : ∀ output report, run R options [] output report
      = some (.failure .preprocessFailed "preprocess input is empty", output, report) :=
    fun _ _ => rfl
  constructor
  · intro h
    by_cases hsamples : samples = []
    · subst hsamples
      exact ⟨_, rfl, hempty⟩
    · refine ⟨.failure .invalidArgument "sensor_min must be finite", rfl, ?_⟩
      intro output report
      rw [run, if_neg (by simpa using hsamples), h.resolve_left hsamples]
      rfl
  · intro hsamples hmin
    obtain ⟨output', -, hcolumns⟩ := run_eq_channelOutput R hsamples hmin (.zero K) none
    have hsame : ∀ c samples' output report output'' report'',
        samples'.map (fun sample => sample.channel c)
          = samples.map (fun sample => sample.channel c) →
        run R options samples' output report = some (.success, output'', report'') →
        ∀ t, output''.get t c = output'.get t c := by
      intro c samples' output report output'' report'' hchannel hrun t
      have hsamples' : samples' ≠ [] := by
        rintro rfl
        apply hsamples (List.map_eq_nil_iff.mp hchannel.symm)
      obtain ⟨x, hx, hxcolumns⟩ := run_eq_channelOutput R hsamples' hmin output report
      obtain ⟨out, hout, hget⟩ := hcolumns c
      obtain ⟨out', hout', hget'⟩ := hxcolumns c
      rw [hx] at hrun
      cases hrun
      rw [hchannel, hout] at hout'
      cases hout'
      apply Option.some.inj
      rw [← hget, ← hget']
    refine ⟨output', ?_, hsame⟩
    intro output report
    obtain ⟨x, hx, -⟩ := run_eq_channelOutput R hsamples hmin output report
    rw [hx, ModelInput.ext_get (fun t c => hsame c samples output report x _ rfl hx t)]

end Preprocessor
