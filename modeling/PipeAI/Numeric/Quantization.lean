import Mathlib.Algebra.Order.Round
import Mathlib.Data.Int.ConditionallyCompleteOrder
import Mathlib.Data.Rat.Floor
import Mathlib.Tactic.FieldSimp
import Mathlib.Tactic.Linarith
import Mathlib.Tactic.Ring

/-!
# Affine quantization

The codes `lo, …, hi` stand for the values `(k - zero) * scale` of an evenly spaced grid.  A value
is given a code by rounding to the nearest integer, with halves away from zero, and limiting to
the codes there are.

The code given to a value is a nearest one (`abs_gridValue_gridCode_sub_le`), within half a step
for values between the ends of the grid (`abs_gridValue_gridCode_sub_le_half`), and the nearer end
for values outside (`gridCode_of_lt`, `gridCode_of_gt`).  A code is the code of its value
(`gridCode_gridValue`), and codes are in the order of the values (`gridCode_mono`).
-/

universe u

/-! ### Limits -/

/-- The integer `k` limited to `lo, …, hi`. -/
def clamp (lo hi k : ℤ) : ℤ :=
  max lo (min hi k)

/-- A limited integer is within the limits. -/
theorem clamp_mem {lo hi : ℤ} (h : lo ≤ hi) (k : ℤ) :
  lo ≤ clamp lo hi k ∧ clamp lo hi k ≤ hi
  := by
  rw [clamp]
  omega

/-- An integer within the limits is not changed. -/
theorem clamp_of_mem {lo hi k : ℤ} (hlo : lo ≤ k) (hhi : k ≤ hi) :
  clamp lo hi k = k
  := by
  rw [clamp]
  omega

/-- Limiting keeps the order. -/
theorem clamp_mono (lo hi : ℤ) :
  Monotone (clamp lo hi)
  := by
  intro k k' h
  rw [clamp, clamp]
  omega

variable {K : Type u} [Field K] [LinearOrder K]

/-! ### Rounding -/

/-- Rounding to the nearest integer, with halves away from zero. -/
def roundAway [FloorRing K] (x : K) : ℤ :=
  if 0 ≤ x then ⌊x + 1 / (2 : ℕ)⌋ else ⌈x - 1 / (2 : ℕ)⌉

/-- The code of a value. -/
def gridCode [FloorRing K] (lo hi : ℤ) (scale : K) (zero : ℤ) (v : K) : ℤ :=
  clamp lo hi (roundAway (v / scale) + zero)

/-- The value of a code. -/
def gridValue (scale : K) (zero k : ℤ) : K :=
  ((k - zero : ℤ) : K) * scale

/-- The codes are within the limits. -/
theorem gridCode_mem [FloorRing K] {lo hi : ℤ} (h : lo ≤ hi) (scale : K) (zero : ℤ) (v : K) :
  lo ≤ gridCode lo hi scale zero v ∧ gridCode lo hi scale zero v ≤ hi
  := clamp_mem h _

variable [IsStrictOrderedRing K]

/-- The distance of a value from that of a code, in steps of the grid. -/
theorem abs_gridValue_sub {scale : K} (hscale : 0 < scale) (zero k : ℤ) (v : K) :
  |gridValue scale zero k - v| = |(v / scale + zero) - k| * scale
  := by
  have heq : gridValue scale zero k - v = -((v / scale + zero) - k) * scale := by
    rw [gridValue, Int.cast_sub]
    field_simp
    ring
  rw [heq, abs_mul, abs_neg, abs_of_pos hscale]

variable [FloorRing K]

/-- Rounding changes a value by at most a half. -/
theorem abs_sub_roundAway_le (x : K) :
  |x - roundAway x| ≤ 1 / 2
  := by
  rw [roundAway, Nat.cast_ofNat, abs_le]
  split
  · have hle := Int.floor_le (x + 1 / 2)
    have hlt := Int.lt_floor_add_one (x + 1 / 2)
    constructor <;> linarith
  · have hle := Int.le_ceil (x - 1 / 2)
    have hlt := Int.ceil_lt_add_one (x - 1 / 2)
    constructor <;> linarith

/-- An integer is not changed by rounding. -/
@[simp]
theorem roundAway_intCast (k : ℤ) :
  roundAway (k : K) = k
  := by
  have habs := abs_sub_roundAway_le (k : K)
  rw [← Int.cast_sub, ← Int.cast_abs] at habs
  have hlt : |k - roundAway (k : K)| < 1 := by
    rw [← Int.cast_lt (R := K)]
    apply lt_of_le_of_lt habs
    rw [Int.cast_one]
    linarith
  rw [Int.abs_lt_one_iff] at hlt
  omega

/-- Rounding keeps the order. -/
theorem roundAway_mono :
  Monotone (roundAway : K → ℤ)
  := by
  intro x y hxy
  rw [roundAway, roundAway, Nat.cast_ofNat]
  split
  · rename_i hx
    rw [if_pos (hx.trans hxy)]
    apply Int.floor_le_floor
    linarith
  · rename_i hx
    split
    · rename_i hy
      have hceil : ⌈x - 1 / 2⌉ ≤ 0 := by
        rw [Int.ceil_le, Int.cast_zero]
        linarith
      have hfloor : 0 ≤ ⌊y + 1 / 2⌋ := by
        rw [Int.le_floor, Int.cast_zero]
        linarith
      apply hceil.trans hfloor
    · apply Int.ceil_le_ceil
      linarith

/-! ### Nearest codes -/

/-- An integer at a distance of at most a half, limited to `lo, …, hi`, is nearest among these. -/
theorem abs_sub_clamp_le {lo hi k r : ℤ} {x : K} (hr : |x - r| ≤ 1 / 2) (hlo : lo ≤ k)
    (hhi : k ≤ hi) :
  |x - clamp lo hi r| ≤ |x - k|
  := by
  rw [abs_le] at hr
  have hcast : ∀ a b : ℤ, a < b → (a : K) + 1 ≤ b := by
    intro a b hab
    rw [← Int.cast_one, ← Int.cast_add, Int.cast_le]
    omega
  rcases lt_trichotomy k (clamp lo hi r) with hlt | heq | hgt
  · have hle : k < r := by
      rw [clamp] at hlt
      omega
    have hclamp : (clamp lo hi r : K) ≤ r := by
      rw [Int.cast_le, clamp]
      omega
    have hk := hcast _ _ hlt
    rw [abs_le]
    constructor
    · rw [abs_of_nonneg (by linarith [hcast _ _ hle])]
      linarith
    · rw [abs_of_nonneg (by linarith [hcast _ _ hle])]
      linarith
  · rw [heq]
  · have hle : r < k := by
      rw [clamp] at hgt
      omega
    have hclamp : (r : K) ≤ clamp lo hi r := by
      rw [Int.cast_le, clamp]
      omega
    have hk := hcast _ _ hgt
    rw [abs_le]
    constructor
    · rw [abs_of_nonpos (by linarith [hcast _ _ hle])]
      linarith
    · rw [abs_of_nonpos (by linarith [hcast _ _ hle])]
      linarith

/-- The position of a value in the grid is rounded with its code, before the limits. -/
theorem abs_position_sub_le (scale : K) (zero : ℤ) (v : K) :
  |(v / scale + zero) - ((roundAway (v / scale) + zero : ℤ) : K)| ≤ 1 / 2
  := by
  have habs := abs_sub_roundAway_le (v / scale)
  rw [Int.cast_add, add_sub_add_right_eq_sub]
  apply habs

section Grid

variable {lo hi : ℤ} {scale : K} (hscale : 0 < scale) (zero : ℤ)

include hscale

/-- No code is nearer to a value than its own. -/
theorem abs_gridValue_gridCode_sub_le {k : ℤ} (hlo : lo ≤ k) (hhi : k ≤ hi) (v : K) :
  |gridValue scale zero (gridCode lo hi scale zero v) - v| ≤ |gridValue scale zero k - v|
  := by
  rw [abs_gridValue_sub hscale, abs_gridValue_sub hscale]
  apply mul_le_mul_of_nonneg_right _ hscale.le
  apply abs_sub_clamp_le (abs_position_sub_le scale zero v) hlo hhi

/-- A value in the grid is the value of its code. -/
theorem gridCode_gridValue {k : ℤ} (hlo : lo ≤ k) (hhi : k ≤ hi) :
  gridCode lo hi scale zero (gridValue scale zero k) = k
  := by
  rw [gridCode, gridValue, mul_div_cancel_right₀ _ hscale.ne', roundAway_intCast, sub_add_cancel,
    clamp_of_mem hlo hhi]

/-- Codes are in the order of the values. -/
theorem gridCode_mono :
  Monotone (gridCode lo hi scale zero)
  := by
  intro v v' h
  apply clamp_mono
  apply add_le_add_left
  apply roundAway_mono
  apply div_le_div_of_nonneg_right h hscale.le

/-- A value below the grid has the least code. -/
theorem gridCode_of_lt (hle : lo ≤ hi) {v : K} (hv : v < gridValue scale zero lo) :
  gridCode lo hi scale zero v = lo
  := by
  apply le_antisymm _ (gridCode_mem hle scale zero v).1
  calc
    _ ≤ gridCode lo hi scale zero (gridValue scale zero lo) := gridCode_mono hscale zero hv.le
    _ = lo := gridCode_gridValue hscale zero le_rfl hle

/-- A value above the grid has the greatest code. -/
theorem gridCode_of_gt (hle : lo ≤ hi) {v : K} (hv : gridValue scale zero hi < v) :
  gridCode lo hi scale zero v = hi
  := by
  apply le_antisymm (gridCode_mem hle scale zero v).2
  calc
    hi = gridCode lo hi scale zero (gridValue scale zero hi) :=
      (gridCode_gridValue hscale zero hle le_rfl).symm
    _ ≤ _ := gridCode_mono hscale zero hv.le

/-- A value between the ends of the grid is within half a step of the value of its code. -/
theorem abs_gridValue_gridCode_sub_le_half {v : K} (hlo : gridValue scale zero lo ≤ v)
    (hhi : v ≤ gridValue scale zero hi) :
  |gridValue scale zero (gridCode lo hi scale zero v) - v| ≤ scale / 2
  := by
  have hround : ∀ k, roundAway (gridValue scale zero k / scale) + zero = k := by
    intro k
    rw [gridValue, mul_div_cancel_right₀ _ hscale.ne', roundAway_intCast, sub_add_cancel]
  have hmono : ∀ {v v' : K}, v ≤ v' →
      roundAway (v / scale) + zero ≤ roundAway (v' / scale) + zero := by
    intro v v' h
    apply add_le_add_left
    apply roundAway_mono
    apply div_le_div_of_nonneg_right h hscale.le
  have hle := hmono hlo
  have hge := hmono hhi
  rw [hround] at hle hge
  rw [abs_gridValue_sub hscale, gridCode, clamp_of_mem hle hge]
  calc
    _ ≤ 1 / 2 * scale := mul_le_mul_of_nonneg_right (abs_position_sub_le scale zero v) hscale.le
    _ = scale / 2 := by ring

end Grid
