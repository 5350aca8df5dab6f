import PipeAI.Preprocess.Reference
import Mathlib.Algebra.Order.Floor.Semifield

/-!
# Finite tensors

The preprocessor replaces the values that are not finite, and clamps the radar values after
smoothing them.  Some weights of the smoothing are negative, so that a smoothed value can be
larger than all values of its channel.

Where the conversions to `float` are exact up to a largest finite value `m` and infinite beyond,
the tensor is finite and clamped exactly when no smoothed value that the resampling reads is
larger than `m` (`Preprocessor.run_sanitized_iff`), and in particular when no valid radar value
is larger than `42 / 55 * m` (`Preprocessor.noOverflow_of_le`).
-/

universe u

namespace Preprocessor

variable {K : Type u} [Field K] [LinearOrder K]

/-- A value of a floating-point type with the largest finite value `m`. -/
def InRange (m : K) (v : Flt K) : Prop :=
  ∀ x, v = .fin x → -m ≤ x ∧ x ≤ m

/-- The samples hold values of the type. -/
def SamplesInRange (m : K) (samples : List (RawSample K)) : Prop :=
  ∀ sample ∈ samples, (∀ ch, InRange m (sample.radar ch)) ∧ InRange m sample.imu

/-- All values of the tensor are finite, and its radar values are not less than `sensor_min`. -/
def Sanitized (sensor_min : K) (output : ModelInput K) : Prop :=
  (∀ t c, (output.get t c).isFinite = true)
    ∧ ∀ t ch, (Flt.fin sensor_min).le (output.get t (radarColumn ch)) = true

/-- The row `t` of the tensor is computed from the values at the index `i` of channels of length
`n`. -/
def Reads (n : ℕ) (t : Fin kTargetLength) (i : ℕ) : Prop :=
  i < n ∧ (i = t * (n - 1) / (kTargetLength - 1)
    ∨ 0 < (t : ℕ) ∧ (t : ℕ) < kTargetLength - 1 ∧ i = t * (n - 1) / (kTargetLength - 1) + 1)

/-- No smoothed value of a radar channel at an index that a row is computed from is larger than
`m`. -/
def NoOverflow (m sensor_min : K) (samples : List (RawSample K)) : Prop :=
  ∀ ch t i, Reads samples.length t i →
    savgol (fillGaps (validAt (samples.map (fun sample => sample.radar ch))) samples.length
      sensor_min) samples.length i ≤ m

/-! ### The values read -/

variable [IsStrictOrderedRing K] [FloorSemiring K]

/-- The index before the position of a row. -/
theorem floor_position (n : ℕ) (t : Fin kTargetLength) :
  ⌊position K t * (n - 1 : ℕ)⌋₊ = t * (n - 1) / (kTargetLength - 1)
  := by
  rw [position, div_mul_eq_mul_div, ← Nat.cast_mul, Nat.floor_div_eq_div]

/-- A row is a value of the channel, or it is interpolated between two of its values. -/
theorem interpolate_cases (R : Rounding K) (g : ℕ → Flt K) {n : ℕ} (hn : 0 < n)
    (t : Fin kTargetLength) :
  (∃ i, (∀ j, Reads n t j ↔ j = i) ∧ interpolate R g n (position K t) = g i)
    ∨ ∃ q a, (∀ j, Reads n t j ↔ j = q ∨ j = q + 1) ∧ 0 ≤ a ∧ a ≤ 1
      ∧ interpolate R g n (position K t) = R.toFloat (g q + .fin a * (g (q + 1) - g q))
  := by
  have hlast : (0 : K) < (kTargetLength - 1 : ℕ) := by
    rw [Nat.cast_pos]
    decide
  have ht := t.isLt
  have hsplit := Nat.div_mul_le_self (t * (n - 1)) (kTargetLength - 1)
  rw [interpolate]
  by_cases hfirst : n = 1 ∨ (t : ℕ) = 0
  · left
    use 0
    have hzero : (t : ℕ) * (n - 1) / (kTargetLength - 1) = 0 := by
      rcases hfirst with rfl | h
      · simp
      · simp [h]
    rw [if_pos]
    · refine ⟨?_, rfl⟩
      intro j
      rw [Reads, hzero]
      omega
    · rcases hfirst with rfl | h
      · left
        rfl
      · right
        simp [position, h]
  · rw [not_or] at hfirst
    have hpos : 0 < position K t := by
      apply div_pos _ hlast
      rw [Nat.cast_pos]
      omega
    rw [if_neg (by rw [not_or]; exact ⟨hfirst.1, not_le.mpr hpos⟩)]
    by_cases hend : (t : ℕ) = kTargetLength - 1
    · left
      use n - 1
      have hdiv : (t : ℕ) * (n - 1) / (kTargetLength - 1) = n - 1 := by
        rw [hend, Nat.mul_div_cancel_left _ (by decide)]
      rw [if_pos]
      · refine ⟨?_, rfl⟩
        intro j
        rw [Reads, hdiv]
        omega
      · rw [position, hend, div_self hlast.ne']
    · right
      have hlt : (t : ℕ) * (n - 1) / (kTargetLength - 1) < n - 1 := by
        rw [Nat.div_lt_iff_lt_mul (by decide), Nat.mul_comm]
        apply Nat.mul_lt_mul_of_pos_left
        · omega
        · omega
      have hmul : 0 ≤ position K t * (n - 1 : ℕ) := mul_nonneg hpos.le (Nat.cast_nonneg _)
      have hlo := Nat.floor_le hmul
      have hhi := Nat.lt_floor_add_one (position K t * (n - 1 : ℕ))
      use t * (n - 1) / (kTargetLength - 1),
        position K t * (n - 1 : ℕ) - ⌊position K t * (n - 1 : ℕ)⌋₊
      rw [if_neg]
      · simp only [floor_position] at hlo hhi ⊢
        refine ⟨?_, by linarith, by linarith, trivial⟩
        intro j
        rw [Reads]
        omega
      · rw [not_le, position, div_lt_one hlast, Nat.cast_lt]
        omega

omit [FloorSemiring K] in
/-- Interpolation with an infinite value does not give a finite one. -/
theorem isFinite_convert_interpolation (m : K) {a : K} (ha : 0 ≤ a) {u v : Flt K}
    (hu : (∃ x, u = .fin x) ∨ u = .posInf) (hv : (∃ x, v = .fin x) ∨ v = .posInf)
    (h : u = .posInf ∨ v = .posInf) :
  (Flt.convert m (u + .fin a * (v - u))).isFinite = false
  := by
  have hneg : (Flt.posInf : Flt K) + Flt.scaleInf (-a) = .nan := by
    rcases ha.eq_or_lt with rfl | ha
    · rw [Flt.scaleInf, neg_zero, if_neg (lt_irrefl _), if_neg (lt_irrefl _)]
      rfl
    · rw [Flt.scaleInf, if_neg (by linarith), if_pos (by linarith)]
      rfl
  have hpos : ∀ x, (Flt.fin x + Flt.scaleInf a).isFinite = false
      ∧ Flt.convert m (.fin x + Flt.scaleInf a) = .fin x + Flt.scaleInf a := by
    intro x
    rcases ha.eq_or_lt with rfl | ha
    · rw [Flt.scaleInf, if_neg (lt_irrefl _), if_neg (lt_irrefl _)]
      exact ⟨rfl, rfl⟩
    · rw [Flt.scaleInf, if_pos ha]
      exact ⟨rfl, rfl⟩
  rcases hu with ⟨x, rfl⟩ | rfl
  · obtain rfl := h.resolve_left (by simp)
    have hval : Flt.fin x + .fin a * (.posInf - .fin x) = .fin x + Flt.scaleInf a := rfl
    rw [hval, (hpos x).2, (hpos x).1]
  · rcases hv with ⟨x, rfl⟩ | rfl
    · have hval : (Flt.posInf : Flt K) + .fin a * (.fin x - .posInf)
          = .posInf + Flt.scaleInf (-a) := rfl
      rw [hval, hneg]
      rfl
    · rfl

/-- A row of a channel whose values are in an interval or infinite is in the interval when no
infinite value is read, and else not finite. -/
theorem interpolate_upTo {m lo : K} (hlo : -m ≤ lo) {g : ℕ → Flt K} {n : ℕ} (hn : 0 < n)
    (hg : ∀ i, i < n → (∃ y, g i = .fin y ∧ lo ≤ y ∧ y ≤ m) ∨ g i = .posInf)
    (t : Fin kTargetLength) :
  ((∀ i, Reads n t i → g i ≠ .posInf) →
      ∃ y, interpolate (Rounding.upTo m) g n (position K t) = .fin y ∧ lo ≤ y ∧ y ≤ m)
    ∧ ((interpolate (Rounding.upTo m) g n (position K t)).isFinite = true →
      ∀ i, Reads n t i → g i ≠ .posInf)
  := by
  have hfin : ∀ i, Reads n t i → (∃ x, g i = .fin x) ∨ g i = .posInf := by
    intro i hi
    rcases hg i hi.1 with ⟨y, hy, -⟩ | hy
    · left
      use y
    · right
      apply hy
  obtain ⟨i, hreads, hval⟩ | ⟨q, a, hreads, ha₀, ha₁, hval⟩ :=
    interpolate_cases (Rounding.upTo m) g hn t
  · have hi : Reads n t i := (hreads i).mpr rfl
    rw [hval]
    constructor
    · intro h
      apply (hg i hi.1).resolve_right (h i hi)
    · intro h j hj hinf
      rw [(hreads j).mp hj] at hinf
      rw [hinf] at h
      cases h
  · have hq : Reads n t q := (hreads q).mpr (Or.inl rfl)
    have hq' : Reads n t (q + 1) := (hreads (q + 1)).mpr (Or.inr rfl)
    rw [hval]
    constructor
    · intro h
      obtain ⟨y₀, hy₀, h₀⟩ := (hg q hq.1).resolve_right (h q hq)
      obtain ⟨y₁, hy₁, h₁⟩ := (hg (q + 1) hq'.1).resolve_right (h (q + 1) hq')
      have hmem := lerp_mem h₀ h₁ ⟨ha₀, ha₁⟩
      use y₀ + (y₁ - y₀) * a
      refine ⟨?_, hmem⟩
      rw [hy₀, hy₁, Flt.fin_sub, Flt.fin_mul, Flt.fin_add, mul_comm a]
      apply Flt.convert_fin ⟨hlo.trans hmem.1, hmem.2⟩
    · intro h j hj hinf
      have hor : g q = .posInf ∨ g (q + 1) = .posInf := by
        rcases (hreads j).mp hj with rfl | rfl
        · left
          apply hinf
        · right
          apply hinf
      have hnot := isFinite_convert_interpolation m ha₀ (hfin q hq) (hfin (q + 1) hq') hor
      apply absurd h
      rw [Bool.not_eq_true]
      apply hnot

/-! ### The radar channels -/

variable {m sensor_min : K} {values : List (Flt K)}

omit [IsStrictOrderedRing K] [FloorSemiring K] in
/-- The valid elements of a channel are positive, and bounded by a bound of its finite values. -/
theorem validAt_mem {hi : K} (hvalues : ∀ x, .fin x ∈ values → x ≤ hi) {i : ℕ} {y : K}
    (h : validAt values i = some y) :
  0 < y ∧ y ≤ hi
  := by
  rw [validAt, Option.bind_eq_some_iff] at h
  obtain ⟨v, hv, hvalid⟩ := h
  rcases v with x | _ | _ | _
  · rw [validValue] at hvalid
    split at hvalid
    · cases hvalid
    · rename_i hx
      cases hvalid
      exact ⟨not_le.mp hx, hvalues y (List.mem_of_getElem? hv)⟩
  · cases hvalid
  · cases hvalid
  · cases hvalid

omit [FloorSemiring K] in
/-- The channel with its gaps filled holds only `sensor_min`, or its values are between 0 and a
bound of the finite values. -/
theorem fillGaps_cases (sensor_min : K) {hi : K} (hvalues : ∀ x, .fin x ∈ values → x ≤ hi) :
  (∀ i, i < values.length → fillGaps (validAt values) values.length sensor_min i = sensor_min)
    ∨ ∀ i, i < values.length → 0 ≤ fillGaps (validAt values) values.length sensor_min i
      ∧ fillGaps (validAt values) values.length sensor_min i ≤ hi
  := by
  rcases Classical.em (∃ k, k < values.length ∧ validAt values k ≠ none) with hsome | hnone
  · right
    intro i h
    apply fillGaps_mem _ hsome h
    intro j y _ hy
    obtain ⟨hpos, hle⟩ := validAt_mem hvalues hy
    exact ⟨hpos.le, hle⟩
  · left
    push Not at hnone
    intro i h
    apply fillGaps_of_none h hnone

omit [FloorSemiring K] in
/-- The values that fill the gaps are in the range. -/
theorem fillGaps_inRange (hmin : -m ≤ sensor_min ∧ sensor_min ≤ m)
    (hvalues : ∀ v ∈ values, InRange m v) {i : ℕ} (h : i < values.length) :
  -m ≤ fillGaps (validAt values) values.length sensor_min i
    ∧ fillGaps (validAt values) values.length sensor_min i ≤ m
  := by
  rcases fillGaps_cases sensor_min (fun x hx => (hvalues _ hx x rfl).2) with hconst | hmem
  · rw [hconst i h]
    apply hmin
  · obtain ⟨hlo, hhi⟩ := hmem i h
    constructor <;> linarith

omit [FloorSemiring K] in
/-- The smoothed values are above the lower end of the range. -/
theorem neg_le_savgol (hmin : -m ≤ sensor_min ∧ sensor_min ≤ m)
    (hvalues : ∀ v ∈ values, InRange m v) {i : ℕ} (h : i < values.length) :
  -m ≤ savgol (fillGaps (validAt values) values.length sensor_min) values.length i
  := by
  rcases fillGaps_cases sensor_min (fun x hx => (hvalues _ hx x rfl).2) with hconst | hmem
  · rw [savgol_of_const hconst h]
    apply hmin.1
  · have hbound := savgol_mem hmem h
    linarith [hbound.1]

omit [FloorSemiring K] in
/-- A value that is resampled is infinite when the smoothed value is larger than `m`, and else
finite and at least `sensor_min`. -/
theorem radarValues_upTo (hmin : -m ≤ sensor_min ∧ sensor_min ≤ m)
    (hvalues : ∀ v ∈ values, InRange m v) {i : ℕ} (h : i < values.length) :
  (savgol (fillGaps (validAt values) values.length sensor_min) values.length i ≤ m →
      ∃ y, radarValues (Rounding.upTo m) sensor_min values i = .fin y ∧ sensor_min ≤ y ∧ y ≤ m)
    ∧ (m < savgol (fillGaps (validAt values) values.length sensor_min) values.length i →
      radarValues (Rounding.upTo m) sensor_min values i = .posInf)
  := by
  rw [radarValues]
  constructor
  · intro hle
    simp only [Rounding.upTo, Flt.convert_fin ⟨neg_le_savgol hmin hvalues h, hle⟩, Flt.max_fin]
    exact ⟨_, rfl, le_max_right _ _, max_le hle hmin.2⟩
  · intro hlt
    simp only [Rounding.upTo, Flt.convert, if_pos hlt]
    rfl

/-! ### The tensor -/

/-- A row of a radar channel is finite and clamped when no smoothed value that is read is larger
than `m`, and else not finite. -/
theorem interpolate_radarValues (hmin : -m ≤ sensor_min ∧ sensor_min ≤ m)
    (hvalues : ∀ v ∈ values, InRange m v) (hpos : 0 < values.length) (t : Fin kTargetLength) :
  ((∀ i, Reads values.length t i →
        savgol (fillGaps (validAt values) values.length sensor_min) values.length i ≤ m) →
      ∃ y, interpolate (Rounding.upTo m) (radarValues (Rounding.upTo m) sensor_min values)
        values.length (position K t) = .fin y ∧ sensor_min ≤ y)
    ∧ ((interpolate (Rounding.upTo m) (radarValues (Rounding.upTo m) sensor_min values)
        values.length (position K t)).isFinite = true →
      ∀ i, Reads values.length t i →
        savgol (fillGaps (validAt values) values.length sensor_min) values.length i ≤ m)
  := by
  have hcases : ∀ i, i < values.length →
      (∃ y, radarValues (Rounding.upTo m) sensor_min values i = .fin y ∧ sensor_min ≤ y ∧ y ≤ m)
        ∨ radarValues (Rounding.upTo m) sensor_min values i = .posInf := by
    intro i hi
    obtain ⟨hle, hlt⟩ := radarValues_upTo hmin hvalues hi
    rcases le_or_gt (savgol (fillGaps (validAt values) values.length sensor_min) values.length i) m
      with h | h
    · left
      apply hle h
    · right
      apply hlt h
  obtain ⟨hfinite, hreads⟩ := interpolate_upTo hmin.1 hpos hcases t
  constructor
  · intro h
    obtain ⟨y, hy, hlo, -⟩ := hfinite (by
      intro i hi hinf
      obtain ⟨x, hx, -⟩ := (radarValues_upTo hmin hvalues hi.1).1 (h i hi)
      rw [hinf] at hx
      cases hx)
    exact ⟨y, hy, hlo⟩
  · intro h i hi
    by_contra hlt
    apply hreads h i hi
    apply (radarValues_upTo hmin hvalues hi.1).2 (not_le.mp hlt)

/-- A row of the inertial sensor is finite. -/
theorem interpolate_imuAt (hm : 0 ≤ m) (hvalues : ∀ v ∈ values, InRange m v)
    (hpos : 0 < values.length) (t : Fin kTargetLength) :
  (interpolate (Rounding.upTo m) (fun i => .fin (imuAt values i)) values.length
    (position K t)).isFinite = true
  := by
  have hmem : ∀ i, i < values.length → -m ≤ imuAt values i ∧ imuAt values i ≤ m := by
    intro i hi
    rw [imuAt, List.getElem?_eq_getElem hi]
    rcases hv : values[i] with x | _ | _ | _
    · apply hvalues _ (List.getElem_mem hi) x hv
    · constructor <;> simp [hm]
    · constructor <;> simp [hm]
    · constructor <;> simp [hm]
  obtain ⟨y, hy, -⟩ := (interpolate_upTo (le_refl (-m)) hpos
    (fun i hi => Or.inl ⟨imuAt values i, rfl, hmem i hi⟩) t).1 (by simp)
  rw [hy]
  rfl

/-- No smoothed value is larger than `m` when no valid radar value is larger than `42 / 55 * m`. -/
theorem noOverflow_of_le {samples : List (RawSample K)} (hmin : -m ≤ sensor_min ∧ sensor_min ≤ m)
    (hvalues : ∀ sample ∈ samples, ∀ ch x, sample.radar ch = .fin x → x ≤ 42 / 55 * m) :
  NoOverflow m sensor_min samples
  := by
  intro ch t i hi
  have hlen : (samples.map (fun sample => sample.radar ch)).length = samples.length :=
    List.length_map _
  rw [← hlen]
  have hlt := hi.1
  rw [← hlen] at hlt
  have hbounded : ∀ x, .fin x ∈ samples.map (fun sample => sample.radar ch) → x ≤ 42 / 55 * m := by
    intro x hx
    obtain ⟨sample, hsample, heq⟩ := List.mem_map.mp hx
    apply hvalues sample hsample ch x heq
  rcases fillGaps_cases sensor_min hbounded with hconst | hmem
  · rw [savgol_of_const hconst hlt]
    apply hmin.2
  · have hbound := savgol_mem hmem hlt
    linarith [hbound.2]

/-- The preprocessor succeeds on samples of the type, and the tensor is finite and clamped exactly
when no smoothed value that is read is larger than the largest finite value. -/
theorem run_sanitized_iff {samples : List (RawSample K)}
    (hmin : -m ≤ sensor_min ∧ sensor_min ≤ m) (h : samples ≠ []) (hrange : SamplesInRange m samples)
    (output : ModelInput K) (report : Option PreprocessReport) :
  ∃ output' report',
    run (Rounding.upTo m) ⟨.fin sensor_min⟩ samples output report
        = some (.success, output', report')
      ∧ (Sanitized sensor_min output' ↔ NoOverflow m sensor_min samples)
  := by
  have hpos : 0 < samples.length := List.length_pos_iff.mpr h
  have hradar : ∀ ch, ∀ v ∈ samples.map (fun sample => sample.radar ch), InRange m v := by
    intro ch v hv
    obtain ⟨sample, hsample, rfl⟩ := List.mem_map.mp hv
    apply (hrange sample hsample).1
  have himu : ∀ v ∈ samples.map (fun sample => sample.imu), InRange m v := by
    intro v hv
    obtain ⟨sample, hsample, rfl⟩ := List.mem_map.mp hv
    apply (hrange sample hsample).2
  obtain ⟨output', hrun, hrows⟩ := run_eq (R := Rounding.upTo m) (fun _ => rfl) sensor_min h
    (by
      intro ch i hi
      have hmem := fillGaps_inRange hmin (hradar ch) (i := i) (by simpa using hi)
      rw [List.length_map] at hmem
      apply Flt.convert_fin hmem) output report
  refine ⟨output', _, hrun, ?_⟩
  have hrow := fun ch t => interpolate_radarValues hmin (hradar ch) (by simpa using hpos) t
  simp only [List.length_map] at hrow
  constructor
  · rintro ⟨hfinite, -⟩ ch t
    apply (hrow ch t).2
    rw [← (hrows t).1 ch]
    apply hfinite
  · intro hno
    have hvalue : ∀ t ch, ∃ y, output'.get t (radarColumn ch) = .fin y ∧ sensor_min ≤ y := by
      intro t ch
      rw [(hrows t).1 ch]
      apply (hrow ch t).1 (hno ch t)
    constructor
    · intro t c
      rcases column_cases c with ⟨ch, rfl⟩ | rfl
      · obtain ⟨y, hy, -⟩ := hvalue t ch
        rw [hy]
        rfl
      · have hfinite := interpolate_imuAt (by linarith) himu (by simpa using hpos) t
        rw [List.length_map] at hfinite
        rw [(hrows t).2]
        apply hfinite
    · intro t ch
      obtain ⟨y, hy, hle⟩ := hvalue t ch
      rw [hy, Flt.le_fin, decide_eq_true_eq]
      apply hle

/-- The theorem at a sample with a missing value, the largest value, and an infinite one. -/
theorem run_sanitized_iff_single :
  ∃ samples : List (RawSample ℚ),
    samples = [⟨0, fun ch => if (ch : ℕ) = 0 then .nan else .fin (floatMax ℚ), .posInf⟩]
    ∧ ∃ output' report',
      run (Rounding.upTo (floatMax ℚ)) ⟨.fin 150⟩ samples (ModelInput.zero ℚ) none
          = some (.success, output', report')
        ∧ (Sanitized 150 output' ↔ NoOverflow (floatMax ℚ) 150 samples)
  := by
  use [⟨0, fun ch => if (ch : ℕ) = 0 then .nan else .fin (floatMax ℚ), .posInf⟩], rfl
  apply run_sanitized_iff
  · norm_num [floatMax]
  · simp
  · intro sample hsample
    rw [List.mem_singleton.mp hsample]
    constructor
    · intro ch x hx
      simp only at hx
      split at hx
      · cases hx
      · cases hx
        norm_num [floatMax]
    · intro x hx
      cases hx

/-- Values of a radar channel up to the largest finite value. -/
def extremes : List (Flt ℚ) :=
  [.fin (floatMax ℚ), .fin (floatMax ℚ), .fin (floatMax ℚ), .fin 1, .fin 1, .fin 1,
    .fin (floatMax ℚ)]

/-- The first smoothed value is larger than the values. -/
theorem savgol_extremes :
  floatMax ℚ < savgol (fillGaps (validAt extremes) 7 150) 7 0
  := by
  have hlarge : ∀ i, i = 0 ∨ i = 1 ∨ i = 2 ∨ i = 6 →
      fillGaps (validAt extremes) 7 150 i = floatMax ℚ := by
    rintro i (rfl | rfl | rfl | rfl) <;> apply fillGaps_of_some (by omega)
      <;> norm_num [validAt, validValue, extremes, floatMax]
  have hsmall : ∀ i, i = 3 ∨ i = 4 ∨ i = 5 → fillGaps (validAt extremes) 7 150 i = 1 := by
    rintro i (rfl | rfl | rfl) <;> apply fillGaps_of_some (by omega)
      <;> norm_num [validAt, validValue, extremes]
  have hsum : savgol (fillGaps (validAt extremes) 7 150) 7 0
      = ∑ j : Fin 7, kWeights ℚ 0 j * fillGaps (validAt extremes) 7 150 (0 + j) :=
    savgol_eq_sum _ le_rfl rfl
  rw [hsum]
  simp only [Fin.sum_univ_seven, kWeights_eq, eval_quadraticKernel]
  norm_num [hlarge, hsmall, floatMax]

/-- The preprocessor fails to give a finite tensor for some samples of the type. -/
theorem not_sanitized_of_extremes :
  ¬ ∀ (sensor_min : ℚ) (samples : List (RawSample ℚ)) (output output' : ModelInput ℚ)
      (report report' : Option PreprocessReport),
    -floatMax ℚ ≤ sensor_min ∧ sensor_min ≤ floatMax ℚ → samples ≠ [] →
    SamplesInRange (floatMax ℚ) samples →
    run (Rounding.upTo (floatMax ℚ)) ⟨.fin sensor_min⟩ samples output report
      = some (.success, output', report') →
    Sanitized sensor_min output'
  := by
  let samples : List (RawSample ℚ) := extremes.map (fun v => ⟨0, fun _ => v, .fin 0⟩)
  have hradar : ∀ ch, samples.map (fun sample => sample.radar ch) = extremes := fun _ => rfl
  have hmem : ∀ v ∈ extremes, InRange (floatMax ℚ) v := by
    intro v hv x hx
    subst hx
    simp only [extremes, List.mem_cons, Flt.fin.injEq, List.not_mem_nil, or_false] at hv
    rcases hv with rfl | rfl | rfl | rfl | rfl | rfl | rfl <;> norm_num [floatMax]
  have hmin : -floatMax ℚ ≤ 150 ∧ 150 ≤ floatMax ℚ := by norm_num [floatMax]
  have hpos : 0 < extremes.length := by decide
  have hne : samples ≠ [] := by simp [samples, extremes]
  obtain ⟨output', hrun, hrows⟩ := run_eq (R := Rounding.upTo (floatMax ℚ)) (fun _ => rfl) 150 hne
    (by
      intro ch i hi
      rw [hradar ch]
      apply Flt.convert_fin (fillGaps_inRange hmin hmem (i := i) hi)) (ModelInput.zero ℚ) none
  intro h
  obtain ⟨hfinite, -⟩ := h 150 samples _ output' none _ hmin hne
    (by
      intro sample hsample
      obtain ⟨v, hv, rfl⟩ := List.mem_map.mp hsample
      refine ⟨fun _ => hmem v hv, ?_⟩
      intro x hx
      cases hx
      norm_num [floatMax]) hrun
  have hzero := hfinite ⟨0, by decide⟩ (radarColumn ⟨0, by decide⟩)
  rw [(hrows ⟨0, by decide⟩).1 ⟨0, by decide⟩, hradar] at hzero
  have hreads : Reads extremes.length ⟨0, by decide⟩ 0 := ⟨hpos, Or.inl rfl⟩
  have hle := (interpolate_radarValues hmin hmem hpos ⟨0, by decide⟩).2 hzero 0 hreads
  apply absurd hle (not_le.mpr savgol_extremes)

end Preprocessor
