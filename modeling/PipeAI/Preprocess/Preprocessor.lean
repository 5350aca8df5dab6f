import PipeAI.Preprocess.MissingRepair
import PipeAI.Preprocess.Savgol
import PipeAI.Preprocess.Resample

/-!
# The preprocessor

`Preprocessor.run` turns a list of samples into the tensor of the model: it repairs, smooths
and clamps the radar channels, sanitizes the values of the inertial sensor, and resamples all
of them to `kTargetLength` rows.

It succeeds on every list that is not empty, with a finite `sensor_min`, whatever the
conversions between floating-point types do (`Preprocessor.run_isSome`).
-/

universe u v

/-- `PreprocessOptions`. -/
structure PreprocessOptions (K : Type u) where
  sensor_min : Flt K

/-- The default-constructed `PreprocessOptions`. -/
def PreprocessOptions.default (K : Type u) [NatCast K] : PreprocessOptions K where
  sensor_min := .fin (150 : ℕ)

/-- `PreprocessReport`. -/
structure PreprocessReport where
  source_samples : ℕ
  radar_invalid_values : ℕ
  imu_nonfinite_values : ℕ
  all_invalid_radar_channels : ℕ
  savgol_applied : Bool
  deriving DecidableEq

/-- The value-initialised `PreprocessReport`, with the number of samples set. -/
def PreprocessReport.ofSamples (source_samples : ℕ) : PreprocessReport where
  source_samples := source_samples
  radar_invalid_values := 0
  imu_nonfinite_values := 0
  all_invalid_radar_channels := 0
  savgol_applied := false

namespace Preprocessor

variable {K : Type u}

/-- The radar channels. -/
abbrev Radar (K : Type u) : Type u := Fin kRadarChannels → List (Flt K)

/-- The column of a radar channel in the tensor. -/
def radarColumn (ch : Fin kRadarChannels) : Fin kInputChannels :=
  ⟨ch, lt_trans ch.isLt (by decide)⟩

/-- The column of the inertial sensor in the tensor. -/
def imuColumn : Fin kInputChannels :=
  ⟨kRadarChannels, by decide⟩

/-- The loop over the radar channels that replaces each of them by what `f` computes from it,
and updates a state. -/
def forChannels {σ : Type}
    (f : Fin kRadarChannels → List (Flt K) → σ → Option (List (Flt K) × σ))
    (radar : Radar K) (s : σ) : Option (Radar K × σ) :=
  forFin kRadarChannels
    (fun ch p => (f ch (p.1 ch) p.2).map (fun q => (Function.update p.1 ch q.1, q.2))) (radar, s)

variable [Field K] [LinearOrder K]

/-- The loop that repairs the channels. -/
def repairChannels (R : Rounding K) (sensor_min : Flt K) :
    Radar K → PreprocessReport → Option (Radar K × PreprocessReport) :=
  forChannels (fun _ channel report =>
    (repairRadarChannel R channel sensor_min).map (fun p =>
      (p.2, { report with
        radar_invalid_values := report.radar_invalid_values + p.1.invalid_values
        all_invalid_radar_channels :=
          report.all_invalid_radar_channels + if p.1.all_invalid then 1 else 0 })))

/-- The loop that smooths the channels, where there are at least seven samples. -/
def smoothChannels (R : Rounding K) (size : ℕ) (radar : Radar K) (report : PreprocessReport) :
    Option (Radar K × PreprocessReport) :=
  if 7 ≤ size then
    forChannels (fun _ channel report =>
      (savgol72Interp R channel).map (fun channel => (channel, report)))
      radar { report with savgol_applied := true }
  else some (radar, report)

omit [Field K] in
/-- The loop that clamps the channels. -/
def clampChannels (sensor_min : Flt K) (radar : Radar K) : Radar K :=
  fun ch => (radar ch).map (fun value => Flt.max value sensor_min)

/-- The loop that resamples the channels.  It ends with the first failure. -/
def resampleChannels (R : Rounding K) (radar : Radar K) : Option (Radar K × Status) :=
  forChannels (fun ch out status =>
    if status.ok then
      (resampleLinearNormalized R (radar ch) kTargetLength out).map (fun p => (p.2, p.1))
    else some (out, status)) (fun _ => []) Status.success

omit [Field K] [LinearOrder K] in
/-- The loop that writes the rows of the tensor. -/
def writeRows (radar_out : Radar K) (imu_out : List (Flt K)) (output : ModelInput K) :
    Option (ModelInput K) :=
  forFin kTargetLength (fun t output =>
    (forFin kRadarChannels (fun ch output =>
        ((radar_out ch)[(t : ℕ)]?).map (output.set t (radarColumn ch))) output).bind
      (fun output => (imu_out[(t : ℕ)]?).map (output.set t imuColumn))) output

/-- `Preprocessor::run`: the status, the tensor, and what the report points to. -/
def run (R : Rounding K) (options : PreprocessOptions K) (samples : List (RawSample K))
    (output : ModelInput K) (report : Option PreprocessReport) :
    Option (Status × ModelInput K × Option PreprocessReport) :=
  if samples.isEmpty then
    some (.failure .preprocessFailed "preprocess input is empty", output, report)
  else if !options.sensor_min.isFinite then
    some (.failure .invalidArgument "sensor_min must be finite", output, report)
  else do
    let stats := PreprocessReport.ofSamples samples.length
    let radar : Radar K := fun ch => samples.map (fun sample => sample.radar ch)
    let imu := samples.map (fun sample => sample.imu)
    let (radar, stats) ← repairChannels R options.sensor_min radar stats
    let (count, imu) := sanitizeImu imu
    let stats : PreprocessReport := { stats with imu_nonfinite_values := count }
    let (radar, stats) ← smoothChannels R samples.length radar stats
    let radar := clampChannels options.sensor_min radar
    let (radar_out, status) ← resampleChannels R radar
    if !status.ok then some (status, output, report)
    else do
      let (status, imu_out) ← resampleLinearNormalized R imu kTargetLength []
      if !status.ok then some (status, output, report)
      else do
        let output ← writeRows radar_out imu_out output
        some (.success, output, report.map (fun _ => stats))

/-! ### The loops over the channels -/

omit [Field K] [LinearOrder K] in
/-- If the body computes a channel with the property `P ch` from each channel, and a state with
the property `Q (ch + 1)` from a state with `Q ch`, then the loop computes such channels, and a
state with the last of these properties. -/
theorem forChannels_spec {σ : Type}
    (f : Fin kRadarChannels → List (Flt K) → σ → Option (List (Flt K) × σ)) (radar : Radar K)
    (s : σ) (Q : ℕ → σ → Prop) (P : Fin kRadarChannels → List (Flt K) → Prop) (hs : Q 0 s)
    (hf : ∀ (ch : Fin kRadarChannels) s, Q ch s →
      ∃ channel s', f ch (radar ch) s = some (channel, s') ∧ P ch channel ∧ Q (ch + 1) s') :
  ∃ radar' s', forChannels f radar s = some (radar', s') ∧ (∀ ch, P ch (radar' ch))
    ∧ Q kRadarChannels s'
  := by
  obtain ⟨⟨radar', s'⟩, hloop, hdone, -, hQ⟩ := forFin_spec
    (fun ch p => (f ch (p.1 ch) p.2).map (fun q => (Function.update p.1 ch q.1, q.2))) (radar, s)
    (fun i p => (∀ ch : Fin kRadarChannels, (ch : ℕ) < i → P ch (p.1 ch))
      ∧ (∀ ch : Fin kRadarChannels, i ≤ (ch : ℕ) → p.1 ch = radar ch) ∧ Q i p.2)
    ⟨by simp, by simp, hs⟩ (by
      rintro i ⟨radar₁, s₁⟩ ⟨hdone, hrest, hQ⟩
      obtain ⟨channel, s₂, hf, hP, hQ⟩ := hf i s₁ hQ
      rw [hrest i le_rfl, hf]
      refine ⟨_, rfl, ?_, ?_, hQ⟩
      · intro ch hch
        by_cases h : ch = i
        · subst h
          simpa using hP
        · simp only [Function.update_of_ne h]
          apply hdone
          have hne : (ch : ℕ) ≠ i := fun heq => h (Fin.ext heq)
          omega
      · intro ch hch
        have h : ch ≠ i := by
          rintro rfl
          omega
        simp only [Function.update_of_ne h]
        apply hrest
        omega)
  exact ⟨radar', s', hloop, fun ch => hdone ch ch.isLt, hQ⟩

omit [Field K] [LinearOrder K] in
theorem radarColumn_injective {ch ch' : Fin kRadarChannels} (h : radarColumn ch = radarColumn ch') :
  ch = ch'
  := by
  have hval : (ch : ℕ) = ch' := congrArg (fun c : Fin kInputChannels => (c : ℕ)) h
  apply Fin.ext hval

omit [Field K] [LinearOrder K] in
theorem imuColumn_ne (ch : Fin kRadarChannels) :
  imuColumn ≠ radarColumn ch
  := by
  intro h
  have hlt := ch.isLt
  have heq : kRadarChannels = ch := congrArg Fin.val h
  omega

omit [Field K] [LinearOrder K] in
/-- A column of the tensor is that of a radar channel or of the inertial sensor. -/
theorem column_cases (c : Fin kInputChannels) :
  (∃ ch, c = radarColumn ch) ∨ c = imuColumn
  := by
  rcases Nat.lt_or_ge (c : ℕ) kRadarChannels with h | h
  · left
    use ⟨c, h⟩
    rfl
  · right
    apply Fin.ext
    have hc := c.isLt
    simp only [kInputChannels, kRadarChannels, imuColumn] at *
    omega

/-- The row `t` of the tensor holds the values of the channels at `t`. -/
def RowWritten (radar_out : Radar K) (imu_out : List (Flt K)) (output : ModelInput K)
    (t : Fin kTargetLength) : Prop :=
  (∀ ch, (radar_out ch)[(t : ℕ)]? = some (output.get t (radarColumn ch)))
    ∧ imu_out[(t : ℕ)]? = some (output.get t imuColumn)

omit [Field K] [LinearOrder K] in
/-- The loop over the channels writes a row, and leaves the others. -/
theorem writeRow_spec {radar_out : Radar K}
    (hradar : ∀ ch, (radar_out ch).length = kTargetLength) (t : Fin kTargetLength)
    (output : ModelInput K) :
  ∃ output', forFin kRadarChannels (fun ch output =>
        ((radar_out ch)[(t : ℕ)]?).map (output.set t (radarColumn ch))) output = some output'
    ∧ (∀ ch, (radar_out ch)[(t : ℕ)]? = some (output'.get t (radarColumn ch)))
    ∧ ∀ t', t' ≠ t → ∀ c, output'.get t' c = output.get t' c
  := by
  obtain ⟨output', hloop, hdone, hrest⟩ := forFin_spec
    (fun ch (output : ModelInput K) =>
      ((radar_out ch)[(t : ℕ)]?).map (output.set t (radarColumn ch))) output
    (fun i output' => (∀ ch : Fin kRadarChannels, (ch : ℕ) < i →
        (radar_out ch)[(t : ℕ)]? = some (output'.get t (radarColumn ch)))
      ∧ ∀ t', t' ≠ t → ∀ c, output'.get t' c = output.get t' c)
    ⟨by simp, fun _ _ _ => rfl⟩ (by
      rintro i output₁ ⟨hdone, hrest⟩
      have hlt : (t : ℕ) < (radar_out i).length := by
        rw [hradar]
        apply t.isLt
      rw [List.getElem?_eq_getElem hlt]
      refine ⟨_, rfl, ?_, ?_⟩
      · intro ch hch
        by_cases h : ch = i
        · subst h
          rw [ModelInput.get_set_self, List.getElem?_eq_getElem hlt]
        · rw [ModelInput.get_set_of_ne _ _ (fun hc => h (radarColumn_injective hc.2))]
          apply hdone
          have hne : (ch : ℕ) ≠ i := fun heq => h (Fin.ext heq)
          omega
      · intro t' ht' c
        rw [ModelInput.get_set_of_ne _ _ (fun hc => ht' hc.1)]
        apply hrest t' ht')
  exact ⟨output', hloop, fun ch => hdone ch ch.isLt, hrest⟩

omit [Field K] [LinearOrder K] in
/-- All rows are written where every channel has a value for every row. -/
theorem writeRows_spec {radar_out : Radar K} {imu_out : List (Flt K)}
    (hradar : ∀ ch, (radar_out ch).length = kTargetLength) (himu : imu_out.length = kTargetLength)
    (output : ModelInput K) :
  ∃ output', writeRows radar_out imu_out output = some output'
    ∧ ∀ t, RowWritten radar_out imu_out output' t
  := by
  obtain ⟨output', hloop, hdone⟩ := forFin_spec
    (fun t (output : ModelInput K) =>
      (forFin kRadarChannels (fun ch output =>
        ((radar_out ch)[(t : ℕ)]?).map (output.set t (radarColumn ch))) output).bind
      (fun output => (imu_out[(t : ℕ)]?).map (output.set t imuColumn))) output
    (fun i output' => ∀ t : Fin kTargetLength, (t : ℕ) < i →
      RowWritten radar_out imu_out output' t)
    (by simp) (by
      intro i output₁ hdone
      obtain ⟨output₂, hrow, hradar', hrest⟩ := writeRow_spec hradar i output₁
      have hlt : (i : ℕ) < imu_out.length := by
        rw [himu]
        apply i.isLt
      rw [hrow, Option.bind_some, List.getElem?_eq_getElem hlt]
      refine ⟨_, rfl, ?_⟩
      intro t ht
      by_cases h : t = i
      · subst h
        constructor
        · intro ch
          rw [ModelInput.get_set_of_ne _ _ (fun hc => imuColumn_ne ch hc.2.symm), hradar' ch]
        · rw [ModelInput.get_set_self, List.getElem?_eq_getElem hlt]
      · have hne : (t : ℕ) ≠ i := fun heq => h (Fin.ext heq)
        obtain ⟨hr, hi⟩ := hdone t (by omega)
        constructor
        · intro ch
          rw [ModelInput.get_set_of_ne _ _ (fun hc => h hc.1), hrest t h, hr ch]
        · rw [ModelInput.get_set_of_ne _ _ (fun hc => h hc.1), hrest t h, hi])
  exact ⟨output', hloop, fun t => hdone t t.isLt⟩

/-! ### The preprocessor has a result -/

omit [Field K] [LinearOrder K] in
/-- The sum over the channels before the next one. -/
theorem sum_ite_lt_succ (f : Fin kRadarChannels → ℕ) (i : Fin kRadarChannels) :
  ∑ ch : Fin kRadarChannels, (if (ch : ℕ) < i + 1 then f ch else 0)
    = (∑ ch : Fin kRadarChannels, if (ch : ℕ) < i then f ch else 0) + f i
  := by
  have hterm : ∀ ch : Fin kRadarChannels, (if (ch : ℕ) < i + 1 then f ch else 0)
      = (if (ch : ℕ) < i then f ch else 0) + if ch = i then f ch else 0 := by
    intro ch
    by_cases h : ch = i
    · subst h
      simp
    · have hne : (ch : ℕ) ≠ i := fun heq => h (Fin.ext heq)
      rw [if_neg h, Nat.add_zero]
      congr 1
      rw [eq_iff_iff]
      omega
  rw [Finset.sum_congr rfl (fun ch _ => hterm ch), Finset.sum_add_distrib,
    Finset.sum_ite_eq' Finset.univ i f, if_pos (Finset.mem_univ i)]

/-- The report with the statistics of the channels added. -/
def addStats (report : PreprocessReport) (stats : Fin kRadarChannels → RadarRepairStats) :
    PreprocessReport :=
  { report with
    radar_invalid_values := report.radar_invalid_values + ∑ ch, (stats ch).invalid_values
    all_invalid_radar_channels :=
      report.all_invalid_radar_channels + ∑ ch, if (stats ch).all_invalid then 1 else 0 }

/-- The repaired channels and the report, where each repair has a result. -/
theorem repairChannels_spec (R : Rounding K) {sensor_min : Flt K} {radar : Radar K}
    (stats : Fin kRadarChannels → RadarRepairStats) (P : Fin kRadarChannels → List (Flt K) → Prop)
    (h : ∀ ch, ∃ channel, repairRadarChannel R (radar ch) sensor_min = some (stats ch, channel)
      ∧ P ch channel) (report : PreprocessReport) :
  ∃ radar', repairChannels R sensor_min radar report = some (radar', addStats report stats)
    ∧ ∀ ch, P ch (radar' ch)
  := by
  obtain ⟨radar', report', hloop, hP, hreport⟩ := forChannels_spec
    (fun _ channel (report : PreprocessReport) =>
      (repairRadarChannel R channel sensor_min).map (fun p =>
        (p.2, { report with
          radar_invalid_values := report.radar_invalid_values + p.1.invalid_values
          all_invalid_radar_channels :=
            report.all_invalid_radar_channels + if p.1.all_invalid then 1 else 0 })))
    radar report
    (fun i report' => report' = addStats report (fun ch =>
      if (ch : ℕ) < i then stats ch else ⟨0, false⟩)) P
    (by simp [addStats]) (by
      rintro ch _ rfl
      obtain ⟨channel, hch, hP⟩ := h ch
      rw [hch]
      refine ⟨_, _, rfl, hP, ?_⟩
      have hvalues := sum_ite_lt_succ (fun ch => (stats ch).invalid_values) ch
      have hchannels := sum_ite_lt_succ (fun ch => if (stats ch).all_invalid then 1 else 0) ch
      simp only [addStats, apply_ite RadarRepairStats.invalid_values,
        apply_ite RadarRepairStats.all_invalid] at hvalues hchannels ⊢
      have hite : ∀ (p : Prop) [Decidable p] (b : Bool),
          (if (if p then b else false) = true then 1 else 0)
            = if p then (if b = true then 1 else 0) else 0 := by
        intro p _ b
        split <;> rfl
      simp only [hite, hvalues, hchannels, Nat.add_assoc])
  use radar'
  rw [repairChannels, hloop, hreport]
  refine ⟨?_, hP⟩
  simp

/-- The smoothed channels and the report, where each smoothing has a result. -/
theorem smoothChannels_spec (R : Rounding K) {size : ℕ} {radar : Radar K}
    (P : Fin kRadarChannels → List (Flt K) → Prop)
    (h : ∀ ch, if 7 ≤ size then ∃ channel, savgol72Interp R (radar ch) = some channel
      ∧ P ch channel else P ch (radar ch)) (report : PreprocessReport) :
  ∃ radar', smoothChannels R size radar report
      = some (radar', { report with savgol_applied := decide (7 ≤ size) || report.savgol_applied })
    ∧ ∀ ch, P ch (radar' ch)
  := by
  rw [smoothChannels]
  by_cases hsize : 7 ≤ size
  · simp only [if_pos hsize] at h ⊢
    obtain ⟨radar', report', hloop, hP, hreport⟩ := forChannels_spec
      (fun _ channel (report : PreprocessReport) =>
        (savgol72Interp R channel).map (fun channel => (channel, report)))
      radar { report with savgol_applied := true }
      (fun _ report' => report' = { report with savgol_applied := true }) P rfl (by
        rintro ch _ rfl
        obtain ⟨channel, hch, hP⟩ := h ch
        rw [hch]
        exact ⟨_, _, rfl, hP, rfl⟩)
    use radar'
    rw [hloop, hreport]
    exact ⟨by simp [hsize], hP⟩
  · simp only [if_neg hsize] at h ⊢
    use radar
    exact ⟨by simp [hsize], h⟩

/-- The resampled channels, where each resampling succeeds. -/
theorem resampleChannels_spec (R : Rounding K) (radar : Radar K)
    (P : Fin kRadarChannels → List (Flt K) → Prop)
    (h : ∀ ch out, ∃ out', resampleLinearNormalized R (radar ch) kTargetLength out
      = some (.success, out') ∧ P ch out') :
  ∃ radar_out, resampleChannels R radar = some (radar_out, .success) ∧ ∀ ch, P ch (radar_out ch)
  := by
  obtain ⟨radar_out, status, hout, hP, rfl⟩ := forChannels_spec
    (fun ch out (status : Status) =>
      if status.ok then
        (resampleLinearNormalized R (radar ch) kTargetLength out).map (fun p => (p.2, p.1))
      else some (out, status))
    (fun _ => []) Status.success (fun _ s => s = Status.success) P rfl (by
      rintro ch status rfl
      obtain ⟨out', hout, hP⟩ := h ch []
      rw [if_pos Status.ok_success, hout]
      exact ⟨_, _, rfl, hP, rfl⟩)
  exact ⟨radar_out, hout, hP⟩

/-- The report on samples with the given statistics of the channels. -/
def reportOn (samples : List (RawSample K)) (stats : Fin kRadarChannels → RadarRepairStats) :
    PreprocessReport where
  source_samples := samples.length
  radar_invalid_values := ∑ ch, (stats ch).invalid_values
  imu_nonfinite_values := (sanitizeImu (samples.map (fun sample => sample.imu))).1
  all_invalid_radar_channels := ∑ ch, if (stats ch).all_invalid then 1 else 0
  savgol_applied := decide (7 ≤ samples.length)

/-- What `run` computes where the loops over the channels compute channels with the properties
`P`, `Q` and `S`, one after the other. -/
theorem run_spec (R : Rounding K) (options : PreprocessOptions K) {samples : List (RawSample K)}
    (hsamples : samples ≠ []) (hmin : options.sensor_min.isFinite = true)
    (output : ModelInput K) (report : Option PreprocessReport)
    (stats : Fin kRadarChannels → RadarRepairStats)
    {P Q S : Fin kRadarChannels → List (Flt K) → Prop} {T : List (Flt K) → Prop}
    (hrepair : ∀ ch, ∃ channel, repairRadarChannel R
      (samples.map (fun sample => sample.radar ch)) options.sensor_min = some (stats ch, channel)
      ∧ P ch channel)
    (hsmooth : ∀ ch channel, P ch channel →
      if 7 ≤ samples.length then
        ∃ channel', savgol72Interp R channel = some channel' ∧ Q ch channel'
      else Q ch channel)
    (hresample : ∀ ch channel out, Q ch channel →
      ∃ out', resampleLinearNormalized R
        (channel.map (fun value => Flt.max value options.sensor_min)) kTargetLength out
          = some (.success, out') ∧ S ch out')
    (himu : ∃ out', resampleLinearNormalized R
      (sanitizeImu (samples.map (fun sample => sample.imu))).2 kTargetLength []
        = some (.success, out') ∧ T out')
    (hS : ∀ ch out, S ch out → out.length = kTargetLength)
    (hT : ∀ out, T out → out.length = kTargetLength) :
  ∃ output', run R options samples output report
      = some (.success, output', report.map (fun _ => reportOn samples stats))
    ∧ ∃ radar_out imu_out, (∀ ch, S ch (radar_out ch)) ∧ T imu_out
      ∧ ∀ t, RowWritten radar_out imu_out output' t
  := by
  rw [run, if_neg (by simpa using hsamples), if_neg (by simpa using hmin)]
  obtain ⟨radar₁, hloop₁, hP⟩ := repairChannels_spec R stats P hrepair
    (PreprocessReport.ofSamples samples.length)
  obtain ⟨radar₂, hloop₂, hQ⟩ := smoothChannels_spec R Q (fun ch => hsmooth ch _ (hP ch))
    { addStats (PreprocessReport.ofSamples samples.length) stats with imu_nonfinite_values :=
      (sanitizeImu (samples.map (fun sample => sample.imu))).1 }
  obtain ⟨radar_out, hloop₃, hSout⟩ := resampleChannels_spec R
    (clampChannels options.sensor_min radar₂) S
    (fun ch out => hresample ch (radar₂ ch) out (hQ ch))
  obtain ⟨imu_out, himu, hTout⟩ := himu
  obtain ⟨output', hwrite, hrows⟩ := writeRows_spec (fun ch => hS ch _ (hSout ch))
    (hT _ hTout) output
  use output'
  simp only [hloop₁, Option.bind_eq_bind, Option.bind_some, hloop₂, hloop₃, himu, hwrite,
    Status.ok_success, Bool.not_true, Bool.false_eq_true, if_false]
  refine ⟨?_, radar_out, imu_out, hSout, hTout, hrows⟩
  simp [reportOn, addStats, PreprocessReport.ofSamples]

/-- The preprocessor succeeds on samples that are not empty, with a finite `sensor_min`. -/
theorem run_isSome (R : Rounding K) {options : PreprocessOptions K} {samples : List (RawSample K)}
    (hsamples : samples ≠ []) (hmin : options.sensor_min.isFinite = true)
    (output : ModelInput K) (report : Option PreprocessReport) :
  ∃ output' report', run R options samples output report = some (.success, output', report')
  := by
  have hpos : 0 < samples.length := List.length_pos_iff.mpr hsamples
  have hne : ∀ channel : List (Flt K), channel.length = samples.length → channel ≠ [] := by
    intro channel hlen
    rw [← List.length_pos_iff, hlen]
    apply hpos
  choose stats channels hrepair hlength using fun ch => repairRadarChannel_isSome R
    (samples.map (fun sample => sample.radar ch)) options.sensor_min
  obtain ⟨output', hrun, -⟩ := run_spec R options hsamples hmin output report stats
    (P := fun _ channel => channel.length = samples.length)
    (Q := fun _ channel => channel.length = samples.length)
    (S := fun _ out => out.length = kTargetLength) (T := fun out => out.length = kTargetLength)
    (fun ch => ⟨channels ch, hrepair ch, by simpa using hlength ch⟩)
    (by
      intro ch channel hlen
      split
      · obtain ⟨channel', hch, hlen'⟩ := savgol72Interp_isSome R channel
        exact ⟨channel', hch, hlen'.trans hlen⟩
      · apply hlen)
    (by
      intro ch channel out hlen
      apply resampleLinearNormalized_isSome R (hne _ (by simpa using hlen)) (by decide))
    (resampleLinearNormalized_isSome R (hne _ (by simp [sanitizeImu])) (by decide) [])
    (fun _ _ h => h) (fun _ h => h)
  exact ⟨output', _, hrun⟩

end Preprocessor
