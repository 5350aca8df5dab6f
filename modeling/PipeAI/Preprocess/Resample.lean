import PipeAI.Numeric.Interpolation
import PipeAI.Numeric.Loop
import PipeAI.Types
import Mathlib.Data.List.Nodup
import Mathlib.Data.Rat.Floor
import Mathlib.Tactic.FieldSimp
import Mathlib.Tactic.Ring

/-!
# Resampling

`resampleLinearNormalized` resamples a sequence to a given length by linear interpolation
between equidistant knots of the unit interval.  A read or write outside of an array has no
result.

With exact knots, the resampled sequence holds the values that `interpolate` computes at
equidistant points (`resampleLinearNormalized_eq`); in exact arithmetic these are the values of
the piecewise-linear interpolant (`interpolate_exact`).
-/

universe u

variable {K : Type u} [Field K] [LinearOrder K]

/-! ### The code -/

/-- `linspace01_float32`. -/
def linspace01Float32 (R : Rounding K) (count : ℕ) : List (Flt K) :=
  let x : List (Flt K) := List.replicate count (.fin 0)
  if count ≤ 1 then x
  else
    let denom : K := (count - 1 : ℕ)
    let x := fillRange x 0 (fun i => .fin (R.knot (i / denom))) count
    (x.set 0 (.fin 0)).set (count - 1) (.fin 1)

omit [Field K] in
/-- `std::upper_bound`: the index of the first element greater than `x`, or the length. -/
def upperBound (xp : List (Flt K)) (x : Flt K) : ℕ :=
  xp.findIdx (fun y => x.lt y)

/-- `interp_one`.  If no element is before the upper bound, the index `left` wraps around. -/
def interpOne (R : Rounding K) (x : Flt K) (xp fp : List (Flt K)) : Option (Flt K) := do
  let front ← xp.head?
  if x.le front then fp.head?
  else
    let back ← xp.getLast?
    if back.le x then fp.getLast?
    else
      let right := upperBound xp x
      if right = 0 then none
      else
        let left := right - 1
        let x0 ← xp[left]?
        let x1 ← xp[right]?
        let y0 ← fp[left]?
        let y1 ← fp[right]?
        let t := (x - x0) / (x1 - x0)
        some (R.toFloat (y0 + t * (y1 - y0)))

/-- `std::vector::resize`. -/
def resize (output : List (Flt K)) (count : ℕ) : List (Flt K) :=
  output.take count ++ List.replicate (count - output.length) (.fin 0)

/-- `resample_linear_normalized`: the status and the output. -/
def resampleLinearNormalized (R : Rounding K) (source : List (Flt K)) (target_length : ℕ)
    (output : List (Flt K)) : Option (Status × List (Flt K)) :=
  match source with
  | [] => some (.failure .invalidArgument "cannot resample an empty sequence", output)
  | front :: rest =>
      if target_length = 0 then
        some (.failure .invalidArgument "target_length must be > 0", output)
      else
        let output := resize output target_length
        if rest = [] then some (.success, output.map (fun _ => front))
        else if target_length = 1 then
          (write output 0 front).map (fun output => (.success, output))
        else
          let old_x := linspace01Float32 R (front :: rest).length
          let new_x := linspace01Float32 R target_length
          (forFin target_length (fun i output =>
              (new_x[(i : ℕ)]?).bind (fun x =>
                (interpOne R x old_x (front :: rest)).bind (write output i)))
            output).map (fun output => (.success, output))

omit [LinearOrder K] in
@[simp]
theorem length_resize (output : List (Flt K)) (count : ℕ) :
  (resize output count).length = count
  := by
  simp [resize]
  omega

/-! ### The resampling has a result -/

/-- The knots of `linspace01_float32`. -/
def knot (R : Rounding K) (count i : ℕ) : K :=
  if i = count - 1 then 1 else if i = 0 then 0 else R.knot (i / (count - 1 : ℕ))

/-- The array of knots. -/
theorem linspace01Float32_eq (R : Rounding K) {count : ℕ} (h : 1 < count) :
  linspace01Float32 R count = table count (fun i => .fin (knot R count i))
  := by
  rw [linspace01Float32]
  simp only [if_neg (by omega : ¬ count ≤ 1)]
  apply eq_table (by simp)
  intro i hi
  rw [knot]
  by_cases hlast : i = count - 1
  · subst hlast
    rw [List.getElem?_set_self (by simpa using hi), if_pos rfl]
  · rw [List.getElem?_set_ne (Ne.symm hlast), if_neg hlast]
    by_cases hfirst : i = 0
    · subst hfirst
      rw [List.getElem?_set_self (by simpa using hi), if_pos rfl]
    · rw [List.getElem?_set_ne (Ne.symm hfirst), if_neg hfirst,
        getElem?_fillRange_of_mem _ _ (by omega) (by omega) (by simpa using hi)]

omit [Field K] in
/-- The upper bound of `x` is an index other than the first where `x` is not before the first
element and is before the last one. -/
theorem upperBound_mem {f : ℕ → K} {n : ℕ} {x : K} (hn : 0 < n) (h₀ : f 0 ≤ x)
    (h₁ : x < f (n - 1)) :
  0 < upperBound (table n (fun i => .fin (f i))) (.fin x)
    ∧ upperBound (table n (fun i => .fin (f i))) (.fin x) < n
  := by
  constructor
  · rw [Nat.pos_iff_ne_zero]
    intro hzero
    rw [upperBound, List.findIdx_eq (by simpa using hn)] at hzero
    simp [table] at hzero
    apply absurd hzero (not_lt.mpr h₀)
  · have hlt : upperBound (table n (fun i => .fin (f i))) (.fin x)
        < (table n (fun i => Flt.fin (f i))).length := by
      apply List.findIdx_lt_length_of_exists
      use .fin (f (n - 1))
      rw [Flt.lt_fin, decide_eq_true_eq]
      exact ⟨List.mem_map.mpr ⟨n - 1, by simpa using hn, rfl⟩, h₁⟩
    simpa using hlt

/-- Interpolation has a result where there are a knot for each value. -/
theorem interpOne_isSome (R : Rounding K) (x : K) {fp : List (Flt K)} (h : 1 < fp.length) :
  ∃ y, interpOne R (.fin x) (linspace01Float32 R fp.length) fp = some y
  := by
  have hpos : 0 < fp.length := by omega
  rw [interpOne, linspace01Float32_eq R h]
  simp only [head?_table _ hpos, getLast?_table _ hpos, Option.bind_eq_bind, Option.bind_some,
    Flt.le_fin, decide_eq_true_eq]
  by_cases hfirst : x ≤ knot R fp.length 0
  · rw [if_pos hfirst, List.head?_eq_getElem?, List.getElem?_eq_getElem hpos]
    exact ⟨_, rfl⟩
  · rw [if_neg hfirst]
    by_cases hlast : knot R fp.length (fp.length - 1) ≤ x
    · rw [if_pos hlast, List.getLast?_eq_getElem?, List.getElem?_eq_getElem (by omega)]
      exact ⟨_, rfl⟩
    · obtain ⟨hright, hlt⟩ := upperBound_mem hpos (le_of_not_ge hfirst) (not_le.mp hlast)
      rw [if_neg hlast, if_neg hright.ne']
      generalize upperBound (table fp.length (fun i => .fin (knot R fp.length i))) (.fin x)
        = right at *
      rw [getElem?_table _ (by omega), getElem?_table _ hlt, List.getElem?_eq_getElem (by omega),
        List.getElem?_eq_getElem hlt]
      exact ⟨_, rfl⟩

/-- Where there are at least two values and at least two are wanted, the resampled sequence holds
the interpolated values. -/
theorem resampleLinearNormalized_of_interpOne {R : Rounding K} {source : List (Flt K)} {m : ℕ}
    (hn : 1 < source.length) (hm : 1 < m) (output : List (Flt K)) {g : ℕ → Flt K}
    (hg : ∀ j, j < m → interpOne R (.fin (knot R m j)) (linspace01Float32 R source.length) source
      = some (g j)) :
  resampleLinearNormalized R source m output = some (.success, table m g)
  := by
  cases source with
  | nil => cases hn
  | cons front rest =>
      have hrest : rest ≠ [] := by
        rintro rfl
        apply absurd hn (lt_irrefl 1)
      rw [resampleLinearNormalized, if_neg (by omega), if_neg hrest, if_neg hm.ne']
      simp only [linspace01Float32_eq R hm]
      rw [forFin_write (length_resize _ _), Option.map_some]
      intro j output _
      rw [getElem?_table _ j.isLt, Option.bind_some, hg j j.isLt, Option.bind_some]

/-- The resampling of a sequence that is not empty succeeds, with the same values whatever the
output held before. -/
theorem resampleLinearNormalized_table (R : Rounding K) {source : List (Flt K)}
    (hsource : source ≠ []) {target_length : ℕ} (hm : 0 < target_length) :
  ∃ g, ∀ output, resampleLinearNormalized R source target_length output
    = some (.success, table target_length g)
  := by
  cases source with
  | nil => apply absurd rfl hsource
  | cons front rest =>
      by_cases hone : rest = []
      · use fun _ => front
        intro output
        rw [resampleLinearNormalized, if_neg hm.ne', if_pos hone]
        congr 2
        apply eq_table (by simp)
        intro i hi
        rw [List.getElem?_map, List.getElem?_eq_getElem (by simpa using hi), Option.map_some]
      · by_cases htarget : target_length = 1
        · use fun _ => front
          intro output
          rw [resampleLinearNormalized, if_neg hm.ne', if_neg hone, if_pos htarget,
            write_eq _ (by simpa using hm), Option.map_some]
          congr 2
          apply eq_table (by simp)
          intro i hi
          obtain rfl : i = 0 := by omega
          rw [List.getElem?_set_self (by simpa using hm)]
        · have hn : 1 < (front :: rest).length := by
            rw [List.length_cons]
            have hrest : rest.length ≠ 0 := by simpa using hone
            omega
          choose g hg using fun j => interpOne_isSome R (knot R target_length j) hn
          use g
          intro output
          apply resampleLinearNormalized_of_interpOne hn (by omega)
          intro j _
          apply hg

/-- The resampling of a sequence that is not empty succeeds. -/
theorem resampleLinearNormalized_isSome (R : Rounding K) {source : List (Flt K)}
    (hsource : source ≠ []) {target_length : ℕ} (hm : 0 < target_length)
    (output : List (Flt K)) :
  ∃ output', resampleLinearNormalized R source target_length output = some (.success, output')
    ∧ output'.length = target_length
  := by
  obtain ⟨g, hg⟩ := resampleLinearNormalized_table R hsource hm
  exact ⟨_, hg output, length_table _ _⟩

/-! ### The resampled sequence -/

/-- Exact knots are equidistant. -/
theorem knot_eq [IsStrictOrderedRing K] {R : Rounding K} (hR : ∀ x, R.knot x = x) {count : ℕ}
    (h : 1 < count) (i : ℕ) :
  knot R count i = i / (count - 1 : ℕ)
  := by
  have hdenom : ((count - 1 : ℕ) : K) ≠ 0 := by
    rw [Nat.cast_ne_zero]
    omega
  rw [knot]
  by_cases hlast : i = count - 1
  · rw [if_pos hlast, hlast, div_self hdenom]
  · rw [if_neg hlast]
    by_cases hfirst : i = 0
    · rw [if_pos hfirst, hfirst, Nat.cast_zero, zero_div]
    · rw [if_neg hfirst, hR]

variable [FloorSemiring K]

/-- The value at `x` of the unit interval computed from the values at `n` equidistant knots. -/
def interpolate (R : Rounding K) (g : ℕ → Flt K) (n : ℕ) (x : K) : Flt K :=
  if n = 1 ∨ x ≤ 0 then g 0
  else if 1 ≤ x then g (n - 1)
  else
    let q := ⌊x * (n - 1 : ℕ)⌋₊
    R.toFloat (g q + .fin (x * (n - 1 : ℕ) - q) * (g (q + 1) - g q))

variable [IsStrictOrderedRing K]

/-- The upper bound of `x` in equidistant knots. -/
theorem upperBound_table {n : ℕ} {x : K} (hn : 1 < n) (h₀ : 0 ≤ x) (h₁ : x < 1) :
  upperBound (table n (fun i => .fin (i / ((n - 1 : ℕ) : K)))) (.fin x) = ⌊x * (n - 1 : ℕ)⌋₊ + 1
    ∧ ⌊x * (n - 1 : ℕ)⌋₊ + 1 < n
  := by
  have hdenom : (0 : K) < (n - 1 : ℕ) := by
    rw [Nat.cast_pos]
    omega
  have hpos : 0 ≤ x * (n - 1 : ℕ) := mul_nonneg h₀ hdenom.le
  have hlo := Nat.floor_le hpos
  have hhi := Nat.lt_floor_add_one (x * (n - 1 : ℕ))
  have hq : ⌊x * (n - 1 : ℕ)⌋₊ + 1 < n := by
    have hlt : ⌊x * (n - 1 : ℕ)⌋₊ < n - 1 := by
      rw [Nat.floor_lt hpos]
      apply mul_lt_of_lt_one_left hdenom h₁
    omega
  generalize ⌊x * (n - 1 : ℕ)⌋₊ = q at *
  refine ⟨?_, hq⟩
  rw [upperBound, table, List.findIdx_map, List.findIdx_eq (by simpa using hq)]
  simp only [Function.comp_apply, List.getElem_range, Flt.lt_fin, decide_eq_true_eq,
    decide_eq_false_iff_not, not_lt]
  constructor
  · rw [lt_div_iff₀ hdenom]
    push_cast
    apply hhi
  · intro j hj
    rw [div_le_iff₀ hdenom]
    apply le_trans _ hlo
    rw [Nat.cast_le]
    omega

/-- Interpolation between equidistant knots. -/
theorem interpOne_eq (R : Rounding K) (g : ℕ → Flt K) {n : ℕ} {x : K} (hn : 1 < n) (h₀ : 0 ≤ x) :
  interpOne R (.fin x) (table n (fun i => .fin (i / ((n - 1 : ℕ) : K)))) (table n g)
    = some (interpolate R g n x)
  := by
  have hdenom : (0 : K) < (n - 1 : ℕ) := by
    rw [Nat.cast_pos]
    omega
  rw [interpOne, interpolate]
  simp only [head?_table _ (by omega : 0 < n), getLast?_table _ (by omega : 0 < n),
    Option.bind_eq_bind, Option.bind_some, Flt.le_fin, Nat.cast_zero, zero_div,
    div_self hdenom.ne', decide_eq_true_eq]
  by_cases hfirst : x ≤ 0
  · rw [if_pos hfirst, if_pos (Or.inr hfirst)]
  · have hmid : ¬ (n = 1 ∨ x ≤ 0) := not_or.mpr ⟨hn.ne', hfirst⟩
    rw [if_neg hfirst, if_neg hmid]
    by_cases hlast : 1 ≤ x
    · rw [if_pos hlast, if_pos hlast]
    · obtain ⟨hupper, hq⟩ := upperBound_table hn h₀ (not_le.mp hlast)
      rw [if_neg hlast, if_neg hlast]
      generalize ⌊x * (n - 1 : ℕ)⌋₊ = q at *
      rw [hupper, if_neg (by omega), Nat.add_sub_cancel]
      simp only [getElem?_table _ hq, getElem?_table _ (by omega : q < n), Option.bind_some]
      have hspan : ((q + 1 : ℕ) : K) / (n - 1 : ℕ) - q / (n - 1 : ℕ) = 1 / (n - 1 : ℕ) := by
        push_cast
        ring
      have hspan' : ((q + 1 : ℕ) : K) / (n - 1 : ℕ) - q / (n - 1 : ℕ) ≠ 0 := by
        rw [hspan]
        apply div_ne_zero one_ne_zero hdenom.ne'
      have ht : (x - q / (n - 1 : ℕ)) / (((q + 1 : ℕ) : K) / (n - 1 : ℕ) - q / (n - 1 : ℕ))
          = x * (n - 1 : ℕ) - q := by
        rw [hspan]
        field_simp
      rw [Flt.fin_sub, Flt.fin_sub, Flt.fin_div _ hspan', ht]

/-- In exact arithmetic the values computed are those of the piecewise-linear interpolant. -/
theorem interpolate_exact (f : ℕ → K) {n : ℕ} {x : K} (hn : 0 < n) (h₀ : 0 ≤ x) (h₁ : x ≤ 1) :
  interpolate (Rounding.exact K) (fun i => .fin (f i)) n x
    = .fin (piecewiseLinear f (x * (n - 1 : ℕ)))
  := by
  rw [interpolate]
  split
  · rename_i hfirst
    have hzero : x * (n - 1 : ℕ) = (0 : ℕ) := by
      rcases hfirst with rfl | hfirst
      · simp
      · rw [le_antisymm hfirst h₀, zero_mul, Nat.cast_zero]
    rw [hzero, piecewiseLinear_natCast]
  · split
    · rename_i hlast
      rw [le_antisymm h₁ hlast, one_mul, piecewiseLinear_natCast]
    · simp only [Flt.fin_sub, Flt.fin_mul, Flt.fin_add, Rounding.exact]
      rw [piecewiseLinear, mul_comm (x * _ - _)]

/-- With exact knots the resampled sequence holds the values computed at equidistant points. -/
theorem resampleLinearNormalized_eq {R : Rounding K} (hR : ∀ x, R.knot x = x) (g : ℕ → Flt K)
    {n target_length : ℕ} (hn : 0 < n) (hm : 0 < target_length) (output : List (Flt K)) :
  resampleLinearNormalized R (table n g) target_length output
    = some (.success, table target_length (fun i =>
        interpolate R g n ((i : K) / (target_length - 1 : ℕ))))
  := by
  obtain ⟨rest, hsource⟩ : ∃ rest, table n g = g 0 :: rest := by
    apply List.head?_eq_some_iff.mp (head?_table _ hn)
  have hlen : rest.length + 1 = n := by
    rw [← List.length_cons, ← hsource, length_table]
  by_cases hone : rest = []
  · obtain rfl : n = 1 := by simpa [hone] using hlen.symm
    rw [hsource, resampleLinearNormalized, if_neg hm.ne', if_pos hone]
    congr 2
    apply eq_table (by simp)
    intro i hi
    rw [List.getElem?_map, List.getElem?_eq_getElem (by simpa using hi), Option.map_some,
      interpolate, if_pos (Or.inl rfl)]
  · by_cases htarget : target_length = 1
    · subst htarget
      rw [hsource, resampleLinearNormalized, if_neg hm.ne', if_neg hone, if_pos rfl,
        write_eq _ (by simp), Option.map_some]
      congr 2
      apply eq_table (by simp)
      intro i hi
      obtain rfl : i = 0 := by omega
      rw [List.getElem?_set_self (by simp), Nat.cast_zero, zero_div, interpolate,
        if_pos (Or.inr le_rfl)]
    · have hrest : rest.length ≠ 0 := by simpa using hone
      have hn : 1 < n := by omega
      apply resampleLinearNormalized_of_interpOne (by simpa using hn) (by omega)
      intro j _
      rw [length_table, linspace01Float32_eq _ hn]
      simp only [knot_eq hR hn, knot_eq hR (by omega : 1 < target_length)]
      apply interpOne_eq R g hn (div_nonneg (Nat.cast_nonneg _) (Nat.cast_nonneg _))

/-! ### Lists of numbers -/

omit [FloorSemiring K] in
/-- The positions of the resampled values are in the unit interval. -/
theorem position_mem {m j : ℕ} (h : j < m) :
  (0 : K) ≤ j / (m - 1 : ℕ) ∧ (j : K) / (m - 1 : ℕ) ≤ 1
  := by
  constructor
  · apply div_nonneg (Nat.cast_nonneg _) (Nat.cast_nonneg _)
  · apply div_le_one_of_le₀ _ (Nat.cast_nonneg _)
    rw [Nat.cast_le]
    omega

/-- Resampling of a list of numbers, in exact arithmetic. -/
theorem resampleLinearNormalized_map {source : List K} (hn : 0 < source.length) {m : ℕ}
    (hm : 0 < m) (output : List (Flt K)) :
  resampleLinearNormalized (Rounding.exact K) (source.map .fin) m output
    = some (.success, (table m (fun j => piecewiseLinear (fun i => source.getD i 0)
        ((j : K) / (m - 1 : ℕ) * (source.length - 1 : ℕ)))).map .fin)
  := by
  rw [map_table, map_eq_table source Flt.fin 0,
    resampleLinearNormalized_eq (fun _ => rfl) _ hn hm]
  congr 2
  apply eq_table (length_table _ _)
  intro j hj
  rw [getElem?_table _ hj, interpolate_exact _ hn (position_mem hj).1 (position_mem hj).2]

/-- The interpolant at the fraction of the steps of one sequence that a step of the other is,
by division with remainder. -/
theorem piecewiseLinear_div (f : ℕ → K) {k l j q r : ℕ} (hr : r < l) (h : j * k = q * l + r) :
  piecewiseLinear f ((j : K) / l * k) = f q + (f (q + 1) - f q) * r / l
  := by
  have hl : (0 : K) < l := by
    rw [Nat.cast_pos]
    omega
  have hcast : (j : K) * k = q * l + r := by exact_mod_cast h
  have hx : (j : K) / l * k = q + r / l := by
    rw [div_mul_eq_mul_div, hcast, add_div, mul_div_cancel_right₀ _ hl.ne']
  have hlt : (r : K) / l < 1 := by
    rw [div_lt_one hl, Nat.cast_lt]
    apply hr
  rw [hx, piecewiseLinear_of_mem f (q := q), add_sub_cancel_left, mul_div_assoc]
  · apply le_add_of_nonneg_right
    apply div_nonneg (Nat.cast_nonneg _) hl.le
  · linarith

/-- With exact arithmetic, resampling fails where there are no values or none are wanted, and
then leaves the output unchanged.  Otherwise the resampled sequence begins with the first value,
repeats it where it is the only one, and is piecewise linear between the values. -/
theorem resampleLinearNormalized_exact (source : List ℚ) (m : ℕ) (output : List (Flt ℚ)) :
  (source = [] ∨ m = 0 → ∃ status : Status, status.ok = false
      ∧ resampleLinearNormalized (Rounding.exact ℚ) (source.map .fin) m output
        = some (status, output))
    ∧ (source ≠ [] → m ≠ 0 → ∃ out : List ℚ,
        resampleLinearNormalized (Rounding.exact ℚ) (source.map .fin) m output
          = some (.success, out.map .fin)
        ∧ out.length = m
        ∧ out[0]? = source[0]?
        ∧ (source.length = 1 → ∀ j, j < m → out[j]? = source[0]?)
        ∧ (2 ≤ source.length → 2 ≤ m → ∀ j q r, j < m → r < m - 1 →
            j * (source.length - 1) = q * (m - 1) + r →
            (r = 0 → q < source.length ∧ out[j]? = source[q]?)
            ∧ (r ≠ 0 → ∃ y₀ y₁, source[q]? = some y₀ ∧ source[q + 1]? = some y₁
                ∧ out[j]? = some (y₀ + (y₁ - y₀) * r / (m - 1 : ℕ)))))
  := by
  constructor
  · intro h
    cases source with
    | nil => exact ⟨_, rfl, rfl⟩
    | cons front rest =>
        obtain rfl := h.resolve_left (List.cons_ne_nil _ _)
        exact ⟨_, rfl, rfl⟩
  · intro hsource hm
    have hn : 0 < source.length := List.length_pos_iff.mpr hsource
    have hm : 0 < m := Nat.pos_of_ne_zero hm
    refine ⟨_, resampleLinearNormalized_map hn hm output, length_table _ _, ?_, ?_, ?_⟩
    · have hzero : ((0 : ℕ) : ℚ) / (m - 1 : ℕ) * (source.length - 1 : ℕ) = (0 : ℕ) := by simp
      rw [getElem?_table _ hm, getElem?_eq_getD hn 0, hzero, piecewiseLinear_natCast]
    · intro hone j hj
      have hzero : (j : ℚ) / (m - 1 : ℕ) * (source.length - 1 : ℕ) = (0 : ℕ) := by simp [hone]
      rw [getElem?_table _ hj, getElem?_eq_getD hn 0, hzero, piecewiseLinear_natCast]
    · intro hn₂ hm₂ j q r hj hr h
      have hle : q * (m - 1) + r ≤ (source.length - 1) * (m - 1) := by
        rw [← h, Nat.mul_comm (source.length - 1)]
        apply Nat.mul_le_mul_right
        omega
      have hq : q ≤ source.length - 1 := by
        apply Nat.le_of_mul_le_mul_right (le_trans (Nat.le_add_right _ _) hle) (by omega)
      rw [getElem?_table _ hj, piecewiseLinear_div _ hr h]
      constructor
      · rintro rfl
        use by omega
        rw [getElem?_eq_getD (by omega) 0, Nat.cast_zero, mul_zero, zero_div, add_zero]
      · intro hpos
        have hq' : q ≠ source.length - 1 := by
          rintro rfl
          omega
        exact ⟨_, _, getElem?_eq_getD (by omega) 0, getElem?_eq_getD (by omega) 0, rfl⟩

/-! ### Rounded knots -/

section RoundedKnots

omit [FloorSemiring K]

omit [IsStrictOrderedRing K] in
/-- The first knot. -/
theorem knot_first (R : Rounding K) {count : ℕ} (h : 1 < count) :
  knot R count 0 = 0
  := by
  rw [knot, if_neg (by omega), if_pos rfl]

omit [IsStrictOrderedRing K] in
/-- The last knot. -/
theorem knot_last (R : Rounding K) (count : ℕ) :
  knot R count (count - 1) = 1
  := if_pos rfl

/-- The knots are in the unit interval. -/
theorem knot_mem (R : Rounding K) {count i : ℕ} (h : i < count) :
  0 ≤ knot R count i ∧ knot R count i ≤ 1
  := by
  rw [knot]
  split
  · exact ⟨zero_le_one, le_rfl⟩
  · split
    · exact ⟨le_rfl, zero_le_one⟩
    · apply R.knot_mem _ (position_mem h).1 (position_mem h).2

/-- The knots are in order. -/
theorem knot_mono (R : Rounding K) {count i j : ℕ} (hij : i ≤ j) (h : j < count) :
  knot R count i ≤ knot R count j
  := by
  by_cases hlast : j = count - 1
  · rw [hlast, knot_last]
    apply (knot_mem R (by omega)).2
  · by_cases hfirst : i = 0
    · rw [hfirst, knot_first R (by omega)]
      apply (knot_mem R h).1
    · rw [knot, knot, if_neg (by omega), if_neg hfirst, if_neg hlast, if_neg (by omega)]
      apply R.knot_mono _ _ (position_mem (by omega)).1 _ (position_mem h).2
      apply div_le_div_of_nonneg_right _ (Nat.cast_nonneg _)
      rw [Nat.cast_le]
      apply hij

omit [Field K] [IsStrictOrderedRing K] in
/-- The elements before an upper bound are not after `x`, and the element there is. -/
theorem upperBound_spec {f : ℕ → K} {n right : ℕ} {x : K}
    (h : upperBound (table n (fun i => .fin (f i))) (.fin x) = right) (hright : right < n) :
  x < f right ∧ ∀ i, i < right → f i ≤ x
  := by
  rw [upperBound, table, List.findIdx_map, List.findIdx_eq (by simpa using hright)] at h
  simpa using h

omit [IsStrictOrderedRing K] in
/-- Where neither guard applies, the knots around `x` are given by its upper bound. -/
theorem bracket (R : Rounding K) {n : ℕ} (hn : 1 < n) {x : K} (h₀ : 0 < x) (h₁ : x < 1) :
  ∃ k, upperBound (linspace01Float32 R n) (.fin x) = k + 1
    ∧ k + 1 < n
    ∧ knot R n k ≤ x
    ∧ x < knot R n (k + 1)
  := by
  rw [linspace01Float32_eq R hn]
  obtain ⟨hpos, hlt⟩ := upperBound_mem (f := knot R n) (x := x) (by omega : 0 < n)
    (by rw [knot_first R hn]; apply h₀.le) (by rw [knot_last]; apply h₁)
  obtain ⟨k, hk⟩ := Nat.exists_eq_succ_of_ne_zero hpos.ne'
  rw [hk] at hlt
  obtain ⟨hafter, hbefore⟩ := upperBound_spec hk hlt
  exact ⟨k, hk, hlt, hbefore k (Nat.lt_succ_self k), hafter⟩

variable {R : Rounding K} {n : ℕ} {x : K}

omit [IsStrictOrderedRing K] in
/-- Interpolation up to the first knot. -/
theorem interpOne_of_le_first (R : Rounding K) (f : ℕ → K) (hn : 1 < n) (h : x ≤ 0) :
  interpOne R (.fin x) (linspace01Float32 R n) (table n (fun i => .fin (f i)))
    = some (.fin (f 0))
  := by
  have hpos : 0 < n := by omega
  rw [interpOne, linspace01Float32_eq R hn]
  simp only [head?_table _ hpos, Option.bind_eq_bind, Option.bind_some, Flt.le_fin,
    decide_eq_true_eq, knot_first R hn]
  rw [if_pos h]

/-- Interpolation from the last knot on. -/
theorem interpOne_of_last_le (R : Rounding K) (f : ℕ → K) (hn : 1 < n) (h : 1 ≤ x) :
  interpOne R (.fin x) (linspace01Float32 R n) (table n (fun i => .fin (f i)))
    = some (.fin (f (n - 1)))
  := by
  have hpos : 0 < n := by omega
  have hx : ¬ x ≤ 0 := by linarith
  rw [interpOne, linspace01Float32_eq R hn]
  simp only [head?_table _ hpos, getLast?_table _ hpos, Option.bind_eq_bind, Option.bind_some,
    Flt.le_fin, decide_eq_true_eq, knot_first R hn, knot_last]
  rw [if_neg hx, if_pos h]

/-- Interpolation between two knots. -/
theorem interpOne_between (hR : ∀ v, R.toFloat v = v) (f : ℕ → K) (hn : 1 < n) (h₀ : 0 < x)
    (h₁ : x < 1) {k : ℕ} (hk : upperBound (linspace01Float32 R n) (.fin x) = k + 1)
    (hkn : k + 1 < n) (hspan : knot R n k < knot R n (k + 1)) :
  interpOne R (.fin x) (linspace01Float32 R n) (table n (fun i => .fin (f i)))
    = some (.fin (f k
        + (x - knot R n k) / (knot R n (k + 1) - knot R n k) * (f (k + 1) - f k)))
  := by
  have hpos : 0 < n := by omega
  rw [linspace01Float32_eq R hn] at hk
  rw [interpOne, linspace01Float32_eq R hn]
  simp only [head?_table _ hpos, getLast?_table _ hpos, Option.bind_eq_bind, Option.bind_some,
    Flt.le_fin, decide_eq_true_eq, knot_first R hn, knot_last]
  rw [if_neg (not_le.mpr h₀), if_neg (not_le.mpr h₁), hk, if_neg (Nat.succ_ne_zero k),
    Nat.add_sub_cancel]
  simp only [getElem?_table _ hkn, getElem?_table _ (by omega : k < n), Option.bind_some]
  rw [hR, Flt.fin_sub, Flt.fin_sub, Flt.fin_div _ (sub_pos.mpr hspan).ne', Flt.fin_sub,
    Flt.fin_mul, Flt.fin_add]

/-- Interpolation gives a value between those at two neighbouring knots. -/
theorem interpOne_convex (hR : ∀ v, R.toFloat v = v) (f : ℕ → K) (hn : 1 < n) (x : K) :
  ∃ k w, k + 1 < n ∧ 0 ≤ w ∧ w ≤ 1
    ∧ interpOne R (.fin x) (linspace01Float32 R n) (table n (fun i => .fin (f i)))
      = some (.fin ((1 - w) * f k + w * f (k + 1)))
  := by
  rcases le_or_gt x 0 with h₀ | h₀
  · refine ⟨0, 0, by omega, le_rfl, zero_le_one, ?_⟩
    rw [interpOne_of_le_first R f hn h₀]
    congr 2
    ring
  · rcases le_or_gt 1 x with h₁ | h₁
    · obtain ⟨k, rfl⟩ := Nat.exists_eq_add_of_lt hn
      refine ⟨k, 1, by omega, zero_le_one, le_rfl, ?_⟩
      rw [interpOne_of_last_le R f hn h₁, (by omega : 1 + k + 1 - 1 = k + 1)]
      congr 2
      ring
    · obtain ⟨k, hk, hkn, hle, hlt⟩ := bracket R hn h₀ h₁
      have hspan := hle.trans_lt hlt
      refine ⟨k, (x - knot R n k) / (knot R n (k + 1) - knot R n k), hkn, ?_, ?_, ?_⟩
      · apply div_nonneg (sub_nonneg.mpr hle) (sub_nonneg.mpr hspan.le)
      · rw [div_le_one (sub_pos.mpr hspan)]
        apply sub_le_sub_right hlt.le
      · rw [interpOne_between hR f hn h₀ h₁ hk hkn hspan]
        congr 2
        ring

/-- Where no two knots are merged, interpolation at a knot gives the value there. -/
theorem interpOne_knot (hR : ∀ v, R.toFloat v = v) (f : ℕ → K) (hn : 1 < n)
    (hinj : ∀ i j, i < n → j < n → knot R n i = knot R n j → i = j) {i : ℕ} (hi : i < n) :
  interpOne R (.fin (knot R n i)) (linspace01Float32 R n) (table n (fun i => .fin (f i)))
    = some (.fin (f i))
  := by
  have hlt : ∀ j k, j < k → k < n → knot R n j < knot R n k := by
    intro j k hjk hk
    apply lt_of_le_of_ne (knot_mono R hjk.le hk)
    intro heq
    apply absurd (hinj j k (by omega) hk heq) hjk.ne
  rcases Nat.eq_zero_or_pos i with rfl | hpos
  · apply interpOne_of_le_first R f hn (knot_first R hn).le
  · by_cases hlast : i = n - 1
    · subst hlast
      apply interpOne_of_last_le R f hn (knot_last R n).ge
    · have h₀ : 0 < knot R n i := by
        rw [← knot_first R hn]
        apply hlt 0 i hpos hi
      have h₁ : knot R n i < 1 := by
        rw [← knot_last R n]
        apply hlt i (n - 1) (by omega) (by omega)
      obtain ⟨k, hk, hkn, hle, hgt⟩ := bracket R hn h₀ h₁
      obtain rfl : k = i := by
        rcases lt_trichotomy k i with h | h | h
        · apply absurd hgt (not_lt.mpr (knot_mono R h hi))
        · apply h
        · apply absurd hle (not_le.mpr (hlt i k h (by omega)))
      rw [interpOne_between hR f hn h₀ h₁ hk hkn (hlt k (k + 1) (Nat.lt_succ_self k) hkn),
        sub_self, zero_div, zero_mul, add_zero]

/-- The resampled values are between neighbouring values; the first and the last stay. -/
theorem resampleLinearNormalized_convex (hR : ∀ v, R.toFloat v = v) (f : ℕ → K) {m : ℕ}
    (hn : 1 < n) (hm : 1 < m) (output : List (Flt K)) :
  ∃ g : ℕ → K, resampleLinearNormalized R (table n (fun i => .fin (f i))) m output
      = some (.success, table m (fun j => .fin (g j)))
    ∧ g 0 = f 0
    ∧ g (m - 1) = f (n - 1)
    ∧ ∀ j, ∃ k w, k + 1 < n ∧ 0 ≤ w ∧ w ≤ 1 ∧ g j = (1 - w) * f k + w * f (k + 1)
  := by
  choose k w hk hw₀ hw₁ hg using fun j => interpOne_convex hR f hn (knot R m j)
  refine ⟨fun j => (1 - w j) * f (k j) + w j * f (k j + 1), ?_, ?_, ?_, ?_⟩
  · apply resampleLinearNormalized_of_interpOne (by simpa using hn) hm
    intro j _
    rw [length_table]
    apply hg
  · have hfirst := hg 0
    rw [interpOne_of_le_first R f hn (knot_first R hm).le] at hfirst
    injection hfirst with hfirst
    injection hfirst with hfirst
    apply hfirst.symm
  · have hlast := hg (m - 1)
    rw [interpOne_of_last_le R f hn (knot_last R m).ge] at hlast
    injection hlast with hlast
    injection hlast with hlast
    apply hlast.symm
  · intro j
    exact ⟨k j, w j, hk j, hw₀ j, hw₁ j, rfl⟩

/-- Resampling to the same length changes nothing where no two knots are merged. -/
theorem resampleLinearNormalized_same (hR : ∀ v, R.toFloat v = v) (source : List K)
    (hn : 1 < source.length) (hknots : (linspace01Float32 R source.length).Nodup)
    (output : List (Flt K)) :
  resampleLinearNormalized R (source.map .fin) source.length output
    = some (.success, source.map .fin)
  := by
  have hinj : ∀ i j, i < source.length → j < source.length →
      knot R source.length i = knot R source.length j → i = j := by
    intro i j hi hj heq
    rw [linspace01Float32_eq R hn, table] at hknots
    apply List.inj_on_of_nodup_map hknots (List.mem_range.mpr hi) (List.mem_range.mpr hj)
    rw [heq]
  rw [map_eq_table source Flt.fin 0]
  apply resampleLinearNormalized_of_interpOne (by simpa using hn) hn
  intro j hj
  rw [length_table]
  apply interpOne_knot hR _ hn hinj hj

end RoundedKnots
