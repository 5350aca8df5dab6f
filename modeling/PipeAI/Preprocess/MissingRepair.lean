import PipeAI.Numeric.Interpolation
import PipeAI.Numeric.Loop
import PipeAI.Types

/-!
# Repair of missing values

`repairRadarChannel` marks the invalid values of a radar channel and fills the runs of marked
values in place; `sanitizeImu` replaces the values of the inertial sensor that are not finite.
A read or write outside of the array has no result.

The repaired channel is the channel with its gaps filled as `fillGaps` says, in exact arithmetic,
and wherever rounding leaves these values as they are (`repairRadarChannel_eq`).
-/

universe u

variable {K : Type u} [Field K] [LinearOrder K]

/-- `RadarRepairStats`. -/
structure RadarRepairStats where
  invalid_values : ℕ
  all_invalid : Bool
  deriving DecidableEq

/-! ### The code -/

/-- The condition under which a radar value is missing. -/
def missing (value : Flt K) : Bool :=
  !value.isFinite || value.le (.fin 0)

/-- The first loop: the missing values become not-a-number. -/
def markMissing (values : List (Flt K)) : List (Flt K) :=
  values.map (fun value => if missing value then .nan else value)

@[simp]
theorem length_markMissing (values : List (Flt K)) :
  (markMissing values).length = values.length
  := List.length_map _

/-- The search for the first value that is a number. -/
def firstValid (values : List (Flt K)) : ℕ :=
  values.findIdx (fun value => !value.isNan)

/-- The search, from `right` on, for the next value that is a number. -/
def skipNan (values : List (Flt K)) (right : ℕ) : ℕ :=
  if h : right < values.length then
    if values[right].isNan then skipNan values (right + 1) else right
  else right
termination_by values.length - right

omit [Field K] [LinearOrder K] in
theorem le_skipNan (values : List (Flt K)) (right : ℕ) :
  right ≤ skipNan values right
  := by
  fun_induction skipNan values right with
  | case1 right h hnan ih => omega
  | case2 right h hnan => apply le_rfl
  | case3 right h => apply le_rfl

omit [Field K] [LinearOrder K] in
theorem skipNan_le {values : List (Flt K)} {right : ℕ} (h : right ≤ values.length) :
  skipNan values right ≤ values.length
  := by
  fun_induction skipNan values right with
  | case1 right hlt hnan ih => apply ih (by omega)
  | case2 right hlt hnan => apply h
  | case3 right hlt => apply h

/-- The value the code gives to the element `i` of a gap after `left` and before `right`. -/
def interpolateGap (R : Rounding K) (left right : ℕ) (y0 y1 : Flt K) (i : ℕ) : Flt K :=
  let span : Flt K := .fin (right - left : ℕ)
  let alpha : Flt K := .fin (i - left : ℕ) / span
  R.toFloat (y0 + (y1 - y0) * alpha)

/-- The loop over the gaps to the right of `left`. -/
def repairGaps (R : Rounding K) (values : List (Flt K)) (left : ℕ) : Option (List (Flt K)) :=
  if h : left + 1 < values.length then
    let right := skipNan values (left + 1)
    if right = values.length then
      some (fillRange values (left + 1) (fun _ => values[left]) (values.length - (left + 1)))
    else
      match values[right]? with
      | none => none
      | some y1 =>
          if right > left + 1 then
            repairGaps R
              (fillRange values (left + 1) (interpolateGap R left right values[left] y1)
                (right - (left + 1))) right
          else repairGaps R values right
  else some values
termination_by values.length - left
decreasing_by
  · rw [length_fillRange]
    omega
  · have hle := le_skipNan values (left + 1)
    omega

/-- `repair_radar_channel`: the statistics and the repaired values. -/
def repairRadarChannel (R : Rounding K) (values : List (Flt K)) (sensor_min : Flt K) :
    Option (RadarRepairStats × List (Flt K)) :=
  if values.isEmpty then some (⟨0, false⟩, values)
  else
    let stats : RadarRepairStats := ⟨values.countP missing, false⟩
    let values := markMissing values
    let first_valid := firstValid values
    if first_valid = values.length then
      some ({ stats with all_invalid := true }, values.map (fun _ => sensor_min))
    else
      match values[first_valid]? with
      | none => none
      | some value =>
          (repairGaps R (fillRange values 0 (fun _ => value) first_valid) first_valid).map
            (fun values => (stats, values))

/-- `sanitize_imu`: the number of values replaced, and the values after it. -/
def sanitizeImu (values : List (Flt K)) : ℕ × List (Flt K) :=
  (values.countP (fun value => !value.isFinite),
    values.map (fun value => if value.isFinite then value else .fin 0))

/-! ### The repair has a result -/

/-- The loop over the gaps has a result, of the same length. -/
theorem repairGaps_isSome (R : Rounding K) (values : List (Flt K)) (left : ℕ) :
  ∃ values', repairGaps R values left = some values' ∧ values'.length = values.length
  := by
  fun_induction repairGaps R values left with
  | case1 values left h right hright => exact ⟨_, rfl, length_fillRange _ _ _ _⟩
  | case2 values left h right hright hnone =>
      have hle := skipNan_le h.le
      rw [List.getElem?_eq_none_iff] at hnone
      omega
  | case3 values left h right hright y1 hy1 hgap ih => simpa using ih
  | case4 values left h right hright y1 hy1 hgap ih => apply ih
  | case5 values left h => exact ⟨_, rfl, rfl⟩

omit [Field K] [LinearOrder K] in
/-- The search for the first valid value stays within the array. -/
theorem firstValid_le (values : List (Flt K)) :
  firstValid values ≤ values.length
  := List.findIdx_le_length

/-- The repair of a channel has a result, of the same length. -/
theorem repairRadarChannel_isSome (R : Rounding K) (values : List (Flt K)) (sensor_min : Flt K) :
  ∃ stats values', repairRadarChannel R values sensor_min = some (stats, values')
    ∧ values'.length = values.length
  := by
  rw [repairRadarChannel]
  by_cases hempty : values.isEmpty
  · rw [if_pos hempty]
    exact ⟨_, _, rfl, rfl⟩
  · rw [if_neg hempty]
    have hlen := length_markMissing values
    have hle := firstValid_le (markMissing values)
    simp only
    generalize markMissing values = marked at *
    by_cases hall : firstValid marked = marked.length
    · rw [if_pos hall]
      exact ⟨_, _, rfl, by simpa using hlen⟩
    · rw [if_neg hall, List.getElem?_eq_getElem (by omega)]
      obtain ⟨values', hv, hlen'⟩ := repairGaps_isSome R
        (fillRange marked 0 (fun _ => marked[firstValid marked]) (firstValid marked))
        (firstValid marked)
      rw [length_fillRange] at hlen'
      simp only [hv, Option.map_some]
      exact ⟨_, _, rfl, by omega⟩

/-! ### The repaired channel -/

/-- The value of a valid element. -/
def validValue : Flt K → Option K
  | .fin x => if x ≤ 0 then none else some x
  | _ => none

/-- The valid elements of a channel. -/
def validAt (values : List (Flt K)) (i : ℕ) : Option K :=
  values[i]?.bind validValue

/-- A valid element as it is, a missing one as not-a-number. -/
def orNan (v : Option K) : Flt K :=
  v.elim .nan .fin

omit [Field K] [LinearOrder K] in
@[simp]
theorem orNan_some (x : K) :
  orNan (some x) = .fin x
  := rfl

omit [Field K] [LinearOrder K] in
@[simp]
theorem isNan_orNan (v : Option K) :
  (orNan v).isNan = v.isNone
  := by
  cases v <;> rfl

theorem orNan_validValue (value : Flt K) :
  (if missing value then .nan else value) = orNan (validValue value)
  := by
  cases value with
  | fin x => by_cases h : x ≤ 0 <;> simp [missing, validValue, orNan, h]
  | _ => rfl

theorem getElem?_markMissing (values : List (Flt K)) {i : ℕ} (h : i < values.length) :
  (markMissing values)[i]? = some (orNan (validAt values i))
  := by
  rw [markMissing, List.getElem?_map, validAt, List.getElem?_eq_getElem h, Option.map_some,
    orNan_validValue, Option.bind_some]

omit [Field K] [LinearOrder K] in
/-- The search finds the next element that is a number, or the end of the array. -/
theorem skipNan_spec {values : List (Flt K)} {n : ℕ} {v : ℕ → Option K} {lo : ℕ}
    (hlen : values.length = n)
    (hv : ∀ i, lo ≤ i → i < n → values[i]? = some (orNan (v i))) (hlo : lo ≤ n) :
  skipNan values lo ≤ n ∧ (∀ k, lo ≤ k → k < skipNan values lo → v k = none)
    ∧ (skipNan values lo < n → ∃ y, v (skipNan values lo) = some y)
  := by
  fun_induction skipNan values lo with
  | case1 right h hnan ih =>
      obtain ⟨hle, hgap, hnext⟩ := ih (fun i hi => hv i (by omega)) (by omega)
      refine ⟨hle, ?_, hnext⟩
      intro k hk hkr
      by_cases hkright : k = right
      · subst hkright
        have hval := hv k le_rfl (by omega)
        rw [List.getElem?_eq_getElem h, Option.some.injEq] at hval
        rw [hval, isNan_orNan] at hnan
        apply Option.isNone_iff_eq_none.mp hnan
      · apply hgap k (by omega) hkr
  | case2 right h hnan =>
      refine ⟨hlo, by omega, ?_⟩
      intro hr
      have hval := hv right le_rfl hr
      rw [List.getElem?_eq_getElem h, Option.some.injEq] at hval
      rw [hval, isNan_orNan] at hnan
      apply Option.ne_none_iff_exists'.mp (by simpa using hnan)
  | case3 right h => exact ⟨hlo, by omega, by omega⟩

/-- The search for the first valid element finds it, or there is none. -/
theorem firstValid_spec (values : List (Flt K)) :
  (∀ k, k < firstValid (markMissing values) → validAt values k = none)
    ∧ (firstValid (markMissing values) < values.length →
      ∃ y, validAt values (firstValid (markMissing values)) = some y)
    ∧ firstValid (markMissing values) ≤ values.length
  := by
  have hget : ∀ k (h : k < (markMissing values).length),
      (markMissing values)[k].isNan = (validAt values k).isNone := by
    intro k h
    have hval := getElem?_markMissing values (by simpa using h)
    rw [List.getElem?_eq_getElem h, Option.some.injEq] at hval
    rw [hval, isNan_orNan]
  have hle : firstValid (markMissing values) ≤ values.length := by
    rw [← length_markMissing values]
    apply firstValid_le
  refine ⟨?_, ?_, hle⟩
  · intro k hk
    have hnot := List.not_of_lt_findIdx hk
    rw [hget] at hnot
    simpa using hnot
  · intro hlt
    have hlt' : firstValid (markMissing values) < (markMissing values).length := by
      simpa using hlt
    have hfound : (!((markMissing values)[firstValid (markMissing values)]).isNan) = true :=
      List.findIdx_getElem (w := hlt')
    rw [hget] at hfound
    apply Option.isSome_iff_exists.mp (by simpa using hfound)

variable [IsStrictOrderedRing K]

/-- A gap is filled with the linear interpolant of its ends, rounded. -/
theorem interpolateGap_fin (R : Rounding K) {left right : ℕ} (y0 y1 : K) (i : ℕ)
    (h : left < right) :
  interpolateGap R left right (.fin y0) (.fin y1) i
    = R.toFloat (.fin (y0 + (y1 - y0) * ((i - left : ℕ) / (right - left : ℕ))))
  := by
  have hspan : ((right - left : ℕ) : K) ≠ 0 := by
    rw [Nat.cast_ne_zero]
    omega
  simp only [interpolateGap]
  rw [Flt.fin_div _ hspan, Flt.fin_sub, Flt.fin_mul, Flt.fin_add]

/-- If the array holds the values with the gaps filled up to the valid index `left`, and the
marked values after it, the loop over the remaining gaps fills them all. -/
theorem repairGaps_eq {R : Rounding K} {values : List (Flt K)} {n : ℕ} {v : ℕ → Option K} {hold : K}
    (hR : ∀ i, i < n → R.toFloat (.fin (fillGaps v n hold i)) = .fin (fillGaps v n hold i))
    {left : ℕ} {y0 : K} (hlen : values.length = n) (hleft : left < n) (hv : v left = some y0)
    (hdone : ∀ i, i ≤ left → values[i]? = some (.fin (fillGaps v n hold i)))
    (hrest : ∀ i, left < i → i < n → values[i]? = some (orNan (v i))) :
  repairGaps R values left = some (table n (fun i => .fin (fillGaps v n hold i)))
  := by
  induction hm : n - left using Nat.strong_induction_on generalizing values left y0 with
  | _ m ih =>
      rw [repairGaps]
      by_cases h : left + 1 < values.length
      · have hy0 : values[left] = .fin y0 := by
          have hval := hdone left le_rfl
          rw [List.getElem?_eq_getElem (by omega), fillGaps_of_some hleft hv] at hval
          apply Option.some.inj hval
        obtain ⟨hle, hgap, hnext⟩ := skipNan_spec hlen (fun i hi => hrest i hi)
          (by omega : left + 1 ≤ n)
        have hlt := le_skipNan values (left + 1)
        rw [dif_pos h]
        simp only [hy0]
        generalize skipNan values (left + 1) = right at *
        by_cases hright : right = values.length
        · rw [if_pos hright]
          congr 1
          apply eq_table (by simpa using hlen)
          intro i hi
          by_cases hil : i ≤ left
          · rw [getElem?_fillRange_of_notMem _ _ (by omega), hdone i hil]
          · rw [getElem?_fillRange_of_mem _ _ (by omega) (by omega) (by omega),
              fillGaps_after (by omega) hi hv (fun k hk hkn => hgap k hk (by omega))]
        · rw [if_neg hright]
          obtain ⟨y1, hy1⟩ := hnext (by omega)
          have hend : values[right]? = some (.fin y1) := by
            rw [hrest right (by omega) (by omega), hy1, orNan_some]
          simp only [hend]
          have hfilled : ∀ i, left < i → i < right →
              interpolateGap R left right (.fin y0) (.fin y1) i
                = .fin (fillGaps v n hold i) := by
            intro i hli hir
            have hval : fillGaps v n hold i
                = y0 + (y1 - y0) * ((i - left : ℕ) / (right - left : ℕ)) :=
              fillGaps_between hli hir (by omega) hv hy1 hgap
            rw [interpolateGap_fin R y0 y1 i (by omega), ← hval]
            apply hR i (by omega)
          by_cases hnear : right > left + 1
          · simp only [if_pos hnear]
            apply ih (n - right) (by omega) (by simpa using hlen) (by omega) hy1 _ _ rfl
            · intro i hi
              by_cases hil : i ≤ left
              · rw [getElem?_fillRange_of_notMem _ _ (by omega), hdone i hil]
              · by_cases hir : i = right
                · subst hir
                  rw [getElem?_fillRange_of_notMem _ _ (by omega), hend,
                    fillGaps_of_some (by omega) hy1]
                · rw [getElem?_fillRange_of_mem _ _ (by omega) (by omega) (by omega),
                    hfilled i (by omega) (by omega)]
            · intro i hi hin
              rw [getElem?_fillRange_of_notMem _ _ (by omega), hrest i (by omega) hin]
          · simp only [if_neg hnear]
            apply ih (n - right) (by omega) hlen (by omega) hy1 _ _ rfl
            · intro i hi
              by_cases hil : i ≤ left
              · apply hdone i hil
              · obtain rfl : i = right := by omega
                rw [hend, fillGaps_of_some (by omega) hy1]
            · intro i hi hin
              apply hrest i (by omega) hin
      · rw [dif_neg h]
        congr 1
        apply eq_table hlen
        intro i hi
        apply hdone i (by omega)

/-- The statistics of a channel: the number of missing values, and whether there are no others. -/
def repairStats (values : List (Flt K)) : RadarRepairStats where
  invalid_values := values.countP missing
  all_invalid := !values.isEmpty && values.all missing

omit [IsStrictOrderedRing K] in
/-- A value is missing exactly where no element is valid. -/
theorem validAt_eq_none_iff {values : List (Flt K)} {i : ℕ} (h : i < values.length) :
  validAt values i = none ↔ missing values[i] = true
  := by
  rw [validAt, List.getElem?_eq_getElem h, Option.bind_some]
  rcases values[i] with x | _ | _ | _
  · by_cases hx : x ≤ 0 <;> simp [missing, validValue, hx]
  · simp [missing, validValue]
  · simp [missing, validValue, Flt.isFinite]
  · simp [missing, validValue, Flt.isFinite]

omit [IsStrictOrderedRing K] in
/-- All values are missing exactly where no element is valid. -/
theorem all_missing_iff {values : List (Flt K)} :
  values.all missing = true ↔ ∀ i, i < values.length → validAt values i = none
  := by
  rw [List.all_eq_true]
  constructor
  · intro hall i hi
    apply (validAt_eq_none_iff hi).mpr (hall _ (List.getElem_mem hi))
  · intro hnone value hvalue
    obtain ⟨i, hi, rfl⟩ := List.getElem_of_mem hvalue
    apply (validAt_eq_none_iff hi).mp (hnone i hi)

omit [IsStrictOrderedRing K] in
/-- Without a valid element the repair of a channel gives `sensor_min` only. -/
theorem repairRadarChannel_of_none (R : Rounding K) {values : List (Flt K)} (sensor_min : Flt K)
    (hnone : ∀ i, i < values.length → validAt values i = none) :
  repairRadarChannel R values sensor_min
    = some (repairStats values, values.map (fun _ => sensor_min))
  := by
  obtain ⟨-, hsome, hle⟩ := firstValid_spec values
  rw [repairRadarChannel, repairStats, all_missing_iff.mpr hnone]
  by_cases hempty : values.isEmpty
  · rw [if_pos hempty, List.isEmpty_iff.mp hempty]
    rfl
  · have hall : firstValid (markMissing values) = values.length := by
      by_contra hne
      obtain ⟨y, hy⟩ := hsome (by omega)
      rw [hnone _ (by omega)] at hy
      cases hy
    rw [if_neg hempty, Bool.eq_false_of_not_eq_true hempty]
    simp only [length_markMissing, if_pos hall]
    rw [markMissing, List.map_map]
    rfl

/-- With a valid element the repair of a channel fills its gaps. -/
theorem repairRadarChannel_of_some (R : Rounding K) {values : List (Flt K)} (sensor_min : Flt K)
    (hold : K) (hvalid : ∃ i, i < values.length ∧ validAt values i ≠ none)
    (hR : ∀ i, i < values.length →
      R.toFloat (.fin (fillGaps (validAt values) values.length hold i))
        = .fin (fillGaps (validAt values) values.length hold i)) :
  repairRadarChannel R values sensor_min
    = some (repairStats values, table values.length
        (fun i => .fin (fillGaps (validAt values) values.length hold i)))
  := by
  obtain ⟨k, hk, hne⟩ := hvalid
  obtain ⟨hnone, hsome, hle⟩ := firstValid_spec values
  have hempty : ¬ values.isEmpty = true := by
    rw [List.isEmpty_iff_length_eq_zero]
    omega
  have hmissing : values.all missing = false := by
    rw [← Bool.not_eq_true, all_missing_iff]
    intro hall
    apply hne (hall k hk)
  have hfirst : firstValid (markMissing values) < values.length := by
    by_contra hnot
    apply hne (hnone k (by omega))
  rw [repairRadarChannel, if_neg hempty, repairStats, hmissing, Bool.and_false]
  simp only [length_markMissing]
  generalize firstValid (markMissing values) = first at *
  obtain ⟨y, hy⟩ := hsome hfirst
  rw [if_neg hfirst.ne, getElem?_markMissing values hfirst, hy, orNan_some]
  simp only
  rw [repairGaps_eq (n := values.length) hR (by simp) hfirst hy]
  · rfl
  · intro i hi
    by_cases hif : i = first
    · subst hif
      rw [getElem?_fillRange_of_notMem _ _ (by omega), getElem?_markMissing values hfirst,
        hy, orNan_some, fillGaps_of_some hfirst hy]
    · rw [getElem?_fillRange_of_mem _ _ (by omega) (by omega) (by simp; omega),
        fillGaps_before (by omega) hfirst hy (fun k hk => hnone k (by omega))]
  · intro i hi hin
    rw [getElem?_fillRange_of_notMem _ _ (by omega), getElem?_markMissing values hin]

/-- The repair of a channel fills its gaps, with `sensor_min` where no element is valid. -/
theorem repairRadarChannel_eq (R : Rounding K) (values : List (Flt K)) (sensor_min : K)
    (hR : ∀ i, i < values.length →
      R.toFloat (.fin (fillGaps (validAt values) values.length sensor_min i))
        = .fin (fillGaps (validAt values) values.length sensor_min i)) :
  repairRadarChannel R values (.fin sensor_min)
    = some (repairStats values, table values.length
        (fun i => .fin (fillGaps (validAt values) values.length sensor_min i)))
  := by
  by_cases hvalid : ∃ i, i < values.length ∧ validAt values i ≠ none
  · apply repairRadarChannel_of_some R _ _ hvalid hR
  · push Not at hvalid
    rw [repairRadarChannel_of_none R _ hvalid]
    congr 2
    apply eq_table (by simp)
    intro i hi
    rw [List.getElem?_map, List.getElem?_eq_getElem hi, Option.map_some, fillGaps_of_none hi hvalid]

/-- The value of the inertial sensor at an index, a value that is not finite read as 0. -/
def imuAt (values : List (Flt K)) (i : ℕ) : K :=
  match values[i]? with
  | some (.fin x) => x
  | _ => 0

omit [LinearOrder K] [IsStrictOrderedRing K] in
/-- The sanitized values of the inertial sensor. -/
theorem sanitizeImu_eq (values : List (Flt K)) :
  (sanitizeImu values).2 = table values.length (fun i => .fin (imuAt values i))
  := by
  apply eq_table (by simp [sanitizeImu])
  intro i hi
  rw [sanitizeImu, List.getElem?_map, imuAt, List.getElem?_eq_getElem hi, Option.map_some]
  cases values[i] <;> rfl
