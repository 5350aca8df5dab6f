import PipeAI.Preprocess.MissingRepair
import Mathlib.Algebra.Order.Field.Rat

/-!
# What the repair of a channel does

An entry of a channel is valid when it is finite and positive.  The repair keeps the valid
entries, fills the others with the nearest valid value at either end and with the linear
interpolant of the nearest valid values between them, and gives `sensor_min` only when no entry
is valid (`repairRadarChannel_spec`).
-/

universe u

variable {K : Type u} [Field K] [LinearOrder K]

/-- The value is finite and positive. -/
def valid : Flt K → Bool
  | .fin x => decide (0 < x)
  | _ => false

/-- The entry at an index is valid, with the given value. -/
def ValidAt (values : List (Flt K)) (i : ℕ) (y : K) : Prop :=
  values[i]? = some (.fin y) ∧ 0 < y

/-- The channel `repaired` keeps the valid entries of the channel `values`, and interpolates the
others between them. -/
structure IsInterpolated (values repaired : List (Flt K)) : Prop where
  kept : ∀ i y, ValidAt values i y → repaired[i]? = some (.fin y)
  leading : ∀ i r y, i < r → ValidAt values r y → (∀ k, k < r → ∀ z, ¬ ValidAt values k z) →
    repaired[i]? = some (.fin y)
  trailing : ∀ l i y, l < i → i < values.length → ValidAt values l y →
    (∀ k, l < k → ∀ z, ¬ ValidAt values k z) → repaired[i]? = some (.fin y)
  inner : ∀ l i r y₀ y₁, l < i → i < r → ValidAt values l y₀ → ValidAt values r y₁ →
    (∀ k, l < k → k < r → ∀ z, ¬ ValidAt values k z) →
    repaired[i]? = some (.fin (y₀ + (y₁ - y₀) * (i - l) / (r - l)))
  positive : ∀ i, i < values.length → ∃ y, repaired[i]? = some (.fin y) ∧ 0 < y
  between : ∀ l i r y₀ y₁, l ≤ i → i ≤ r → ValidAt values l y₀ → ValidAt values r y₁ →
    (∀ k, l < k → k ≤ i → ∀ z, ¬ ValidAt values k z) →
    (∀ k, i ≤ k → k < r → ∀ z, ¬ ValidAt values k z) →
    ∃ y, repaired[i]? = some (.fin y) ∧ min y₀ y₁ ≤ y ∧ y ≤ max y₀ y₁

/-! ### Valid entries -/

/-- The values that the code replaces are those that are not valid. -/
theorem missing_eq (value : Flt K) :
  missing value = !valid value
  := by
  cases value with
  | fin x => simp [missing, valid, ← not_lt]
  | _ => rfl

/-- The valid entries are the valid elements. -/
theorem validAt_eq_some_iff {values : List (Flt K)} {i : ℕ} {y : K} :
  validAt values i = some y ↔ ValidAt values i y
  := by
  rw [validAt, Option.bind_eq_some_iff, ValidAt]
  constructor
  · rintro ⟨v, hv, hvalid⟩
    rcases v with x | _ | _ | _
    · rw [validValue] at hvalid
      split at hvalid
      · cases hvalid
      · rename_i hx
        cases hvalid
        exact ⟨hv, not_le.mp hx⟩
    · cases hvalid
    · cases hvalid
    · cases hvalid
  · rintro ⟨hv, hy⟩
    refine ⟨_, hv, ?_⟩
    rw [validValue, if_neg (not_le.mpr hy)]

/-- Where no entry is valid there is no valid element. -/
theorem validAt_eq_none {values : List (Flt K)} {i : ℕ} (h : ∀ y, ¬ ValidAt values i y) :
  validAt values i = none
  := by
  rw [Option.eq_none_iff_forall_ne_some]
  intro y hy
  apply h y (validAt_eq_some_iff.mp hy)

/-- A valid entry is within the channel. -/
theorem ValidAt.lt_length {values : List (Flt K)} {i : ℕ} {y : K} (h : ValidAt values i y) :
  i < values.length
  := by
  obtain ⟨hlt, -⟩ := List.getElem?_eq_some_iff.mp h.1
  apply hlt

/-! ### The repaired channel -/

variable [IsStrictOrderedRing K]

/-- A channel with a valid entry and with its gaps filled is interpolated. -/
theorem isInterpolated_fillGaps {values : List (Flt K)} (hold : K)
    (hvalid : ∃ i, i < values.length ∧ validAt values i ≠ none) :
  IsInterpolated values (table values.length
    (fun i => .fin (fillGaps (validAt values) values.length hold i)))
  := by
  have hpos : ∀ i y, i < values.length → validAt values i = some y → 0 < y :=
    fun i y _ hy => (validAt_eq_some_iff.mp hy).2
  constructor
  · intro i y hy
    rw [getElem?_table _ hy.lt_length, fillGaps_of_some hy.lt_length (validAt_eq_some_iff.mpr hy)]
  · intro i r y hir hy hgap
    have hr := hy.lt_length
    rw [getElem?_table _ (by omega), fillGaps_before hir hr (validAt_eq_some_iff.mpr hy)
      (fun k hk => validAt_eq_none (hgap k hk))]
  · intro l i y hli hi hy hgap
    rw [getElem?_table _ hi, fillGaps_after hli hi (validAt_eq_some_iff.mpr hy)
      (fun k hk _ => validAt_eq_none (hgap k hk))]
  · intro l i r y₀ y₁ hli hir h₀ h₁ hgap
    have hr := h₁.lt_length
    rw [getElem?_table _ (by omega), fillGaps_between hli hir hr (validAt_eq_some_iff.mpr h₀)
      (validAt_eq_some_iff.mpr h₁) (fun k hk hkr => validAt_eq_none (hgap k hk hkr)),
      Nat.cast_sub hli.le, Nat.cast_sub (hli.trans hir).le, mul_div_assoc]
  · intro i hi
    exact ⟨_, getElem?_table _ hi, fillGaps_pos hpos hvalid hi⟩
  · intro l i r y₀ y₁ hli hir h₀ h₁ hbelow habove
    have hi : i < values.length := by
      have hr := h₁.lt_length
      omega
    refine ⟨_, getElem?_table _ hi, ?_⟩
    apply fillGaps_mem_nearest hi _ _ hvalid
    · intro l' y hb
      rw [nearestBelow_eq_some (validAt_eq_some_iff.mpr h₀) hli
        (fun k hk hki => validAt_eq_none (hbelow k hk hki))] at hb
      cases hb
      exact ⟨min_le_left _ _, le_max_left _ _⟩
    · intro r' y ha
      rw [nearestAbove_eq_some (validAt_eq_some_iff.mpr h₁) hir (by have hr := h₁.lt_length; omega)
        (fun k hk hkr => validAt_eq_none (habove k hk hkr))] at ha
      cases ha
      exact ⟨min_le_right _ _, le_max_right _ _⟩

/-- The repair does not change a channel of positive values. -/
theorem repairRadarChannel_of_positive {repaired : List (Flt K)} (sensor_min : Flt K)
    (h : ∀ i, i < repaired.length → ∃ y, ValidAt repaired i y) :
  repairRadarChannel (Rounding.exact K) repaired sensor_min = some (⟨0, false⟩, repaired)
  := by
  rcases hlen : repaired.length with _ | n
  · rw [List.length_eq_zero_iff.mp hlen]
    rfl
  · have hvalid : ∃ i, i < repaired.length ∧ validAt repaired i ≠ none := by
      obtain ⟨y, hy⟩ := h 0 (by omega)
      use 0, by omega
      rw [validAt_eq_some_iff.mpr hy]
      simp
    have hmissing : ∀ value ∈ repaired, missing value = false := by
      intro value hvalue
      obtain ⟨i, hi, rfl⟩ := List.getElem_of_mem hvalue
      obtain ⟨y, hy, hpos⟩ := h i hi
      rw [List.getElem?_eq_getElem hi, Option.some.injEq] at hy
      rw [hy, missing_eq]
      simpa [valid] using hpos
    have hstats : repairStats repaired = ⟨0, false⟩ := by
      have hcount : repaired.countP missing = 0 := by
        rw [List.countP_eq_zero]
        intro value hvalue
        rw [hmissing value hvalue]
        simp
      have hall : repaired.all missing = false := by
        rw [← Bool.not_eq_true, all_missing_iff]
        intro hnone
        obtain ⟨i, hi, hne⟩ := hvalid
        apply hne (hnone i hi)
      rw [repairStats, hcount, hall, Bool.and_false]
    rw [repairRadarChannel_of_some (Rounding.exact K) sensor_min 0 hvalid (fun _ _ => rfl), hstats]
    congr 2
    symm
    apply eq_table rfl
    intro i hi
    obtain ⟨y, hy⟩ := h i hi
    rw [fillGaps_of_some hi (validAt_eq_some_iff.mpr hy), hy.1]

/-- In exact rational arithmetic the repair keeps the length of a channel and counts its entries
that are not valid.  It tells whether there are entries but no valid one, and then gives
`sensor_min` only; else the channel is interpolated, and a second repair does not change it. -/
theorem repairRadarChannel_spec (values : List (Flt ℚ)) (sensor_min : Flt ℚ) :
  ∃ stats repaired, repairRadarChannel (Rounding.exact ℚ) values sensor_min
      = some (stats, repaired)
    ∧ repaired.length = values.length
    ∧ stats.invalid_values = values.countP (fun value => !valid value)
    ∧ (stats.all_invalid = true ↔ values ≠ [] ∧ ∀ value ∈ values, valid value = false)
    ∧ (stats.all_invalid = true → ∀ value ∈ repaired, value = sensor_min)
    ∧ (stats.all_invalid = false → IsInterpolated values repaired
      ∧ ∀ sensor_min', repairRadarChannel (Rounding.exact ℚ) repaired sensor_min'
        = some (⟨0, false⟩, repaired))
  := by
  have hcount : values.countP missing = values.countP (fun value => !valid value) := by
    congr 1
    funext value
    apply missing_eq
  have hall : (repairStats values).all_invalid = true
      ↔ values ≠ [] ∧ ∀ value ∈ values, valid value = false := by
    simp [repairStats, missing_eq]
  by_cases hvalid : ∃ i, i < values.length ∧ validAt values i ≠ none
  · have hrepair := repairRadarChannel_of_some (Rounding.exact ℚ) sensor_min 0 hvalid
      (fun _ _ => rfl)
    have hinterpolated := isInterpolated_fillGaps 0 hvalid
    refine ⟨_, _, hrepair, length_table _ _, hcount, hall, ?_, ?_⟩
    · intro h
      obtain ⟨i, hi, hne⟩ := hvalid
      exfalso
      apply hne
      rw [validAt_eq_none_iff hi, missing_eq, (hall.mp h).2 _ (List.getElem_mem hi)]
      rfl
    · intro _
      use hinterpolated
      intro sensor_min'
      apply repairRadarChannel_of_positive
      intro i hi
      rw [length_table] at hi
      apply hinterpolated.positive i hi
  · push Not at hvalid
    refine ⟨_, _, repairRadarChannel_of_none (Rounding.exact ℚ) sensor_min hvalid,
      List.length_map _, hcount, hall, ?_, ?_⟩
    · intro _ value hvalue
      obtain ⟨-, -, rfl⟩ := List.mem_map.mp hvalue
      rfl
    · intro h
      have hempty : values = [] := by
        by_contra hne
        rw [← Bool.not_eq_true, hall] at h
        apply h
        use hne
        intro value hvalue
        obtain ⟨i, hi, rfl⟩ := List.getElem_of_mem hvalue
        have hmissing := (validAt_eq_none_iff hi).mp (hvalid i hi)
        rw [missing_eq] at hmissing
        simpa using hmissing
      subst hempty
      refine ⟨?_, fun _ => rfl⟩
      constructor <;> intros <;> simp_all [ValidAt]
