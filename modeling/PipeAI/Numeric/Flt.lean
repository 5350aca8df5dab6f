import Mathlib.Algebra.Order.Field.Basic

/-!
# Floating-point values over an exact field

`Flt K` are the values of a floating-point type read exactly: the elements of an ordered
field `K`, not-a-number and the two infinities.  The arithmetic operations are those of `K`
on finite values and follow IEEE 754 on the others; the sign of zero is not represented, so
a division by zero has the sign of the dividend.

A conversion between floating-point types is a function on `Flt K`.  `Rounding K` gathers the
conversions the code makes; `Rounding.exact` is the reading in which they change nothing.
-/

universe u

/-- An element of the field `K`, not-a-number, or an infinity. -/
inductive Flt (K : Type u) where
  | fin (x : K)
  | nan
  | posInf
  | negInf
  deriving DecidableEq

namespace Flt

variable {K : Type u}

/-- `std::isfinite`. -/
def isFinite : Flt K → Bool
  | .fin _ => true
  | _ => false

/-- `std::isnan`. -/
def isNan : Flt K → Bool
  | .nan => true
  | _ => false

@[simp]
theorem isFinite_fin (x : K) :
  (fin x).isFinite = true
  := rfl

@[simp]
theorem isFinite_nan :
  (nan : Flt K).isFinite = false
  := rfl

@[simp]
theorem isNan_fin (x : K) :
  (fin x).isNan = false
  := rfl

@[simp]
theorem isNan_nan :
  (nan : Flt K).isNan = true
  := rfl

section Order

variable [LinearOrder K]

/-- The comparison `<`, false when an operand is not a number. -/
def lt : Flt K → Flt K → Bool
  | .fin x, .fin y => decide (x < y)
  | .fin _, .posInf => true
  | .negInf, .fin _ => true
  | .negInf, .posInf => true
  | _, _ => false

/-- The comparison `<=`, false when an operand is not a number. -/
def le : Flt K → Flt K → Bool
  | .fin x, .fin y => decide (x ≤ y)
  | .fin _, .posInf => true
  | .negInf, .fin _ => true
  | .negInf, .posInf => true
  | .posInf, .posInf => true
  | .negInf, .negInf => true
  | _, _ => false

/-- `std::max`: the first argument unless it is less than the second. -/
def max (a b : Flt K) : Flt K :=
  if a.lt b then b else a

@[simp]
theorem lt_fin (x y : K) :
  (fin x).lt (fin y) = decide (x < y)
  := rfl

@[simp]
theorem lt_irrefl (a : Flt K) :
  a.lt a = false
  := by
  cases a with
  | fin x => simp
  | _ => rfl

@[simp]
theorem le_fin (x y : K) :
  (fin x).le (fin y) = decide (x ≤ y)
  := rfl

@[simp]
theorem max_fin (x y : K) :
  (fin x).max (fin y) = fin (Max.max x y)
  := by
  by_cases h : x < y
  · simp [max, h, max_eq_right h.le]
  · simp [max, h, max_eq_left (not_lt.mp h)]

end Order

section Arithmetic

variable [Field K]

/-- Addition. -/
def add : Flt K → Flt K → Flt K
  | .fin x, .fin y => .fin (x + y)
  | .nan, _ => .nan
  | _, .nan => .nan
  | .posInf, .negInf => .nan
  | .negInf, .posInf => .nan
  | .posInf, _ => .posInf
  | _, .posInf => .posInf
  | .negInf, _ => .negInf
  | _, .negInf => .negInf

/-- The opposite value. -/
def neg : Flt K → Flt K
  | .fin x => .fin (-x)
  | .nan => .nan
  | .posInf => .negInf
  | .negInf => .posInf

instance : Add (Flt K) := ⟨add⟩
instance : Neg (Flt K) := ⟨neg⟩
instance : Sub (Flt K) := ⟨fun a b => a + -b⟩

@[simp]
theorem fin_add (x y : K) :
  fin x + fin y = fin (x + y)
  := rfl

@[simp]
theorem fin_sub (x y : K) :
  fin x - fin y = fin (x - y)
  := by
  rw [sub_eq_add_neg]
  rfl

variable [LinearOrder K]

/-- Positive infinity times `x`. -/
def scaleInf (x : K) : Flt K :=
  if 0 < x then .posInf else if x < 0 then .negInf else .nan

/-- Multiplication. -/
def mul : Flt K → Flt K → Flt K
  | .fin x, .fin y => .fin (x * y)
  | .nan, _ => .nan
  | _, .nan => .nan
  | .posInf, .posInf => .posInf
  | .posInf, .negInf => .negInf
  | .negInf, .posInf => .negInf
  | .negInf, .negInf => .posInf
  | .posInf, .fin y => scaleInf y
  | .negInf, .fin y => scaleInf (-y)
  | .fin x, .posInf => scaleInf x
  | .fin x, .negInf => scaleInf (-x)

/-- Division. -/
def div : Flt K → Flt K → Flt K
  | .fin x, .fin y => if y = 0 then scaleInf x else .fin (x / y)
  | .nan, _ => .nan
  | _, .nan => .nan
  | .fin _, .posInf => .fin 0
  | .fin _, .negInf => .fin 0
  | .posInf, .fin y => if y = 0 then .posInf else scaleInf y
  | .negInf, .fin y => if y = 0 then .negInf else scaleInf (-y)
  | _, _ => .nan

instance : Mul (Flt K) := ⟨mul⟩
instance : Div (Flt K) := ⟨div⟩

@[simp]
theorem fin_mul (x y : K) :
  fin x * fin y = fin (x * y)
  := rfl

/-- The division of finite values is exact where the divisor is not zero. -/
theorem fin_div (x : K) {y : K} (hy : y ≠ 0) :
  fin x / fin y = fin (x / y)
  := if_neg hy

/-- The conversion to a type with the largest finite value `m`: exact up to `m`, and infinite
beyond. -/
def convert (m : K) : Flt K → Flt K
  | .fin x => if m < x then .posInf else if x < -m then .negInf else .fin x
  | v => v

/-- The conversion is exact in the range. -/
theorem convert_fin {m x : K} (h : -m ≤ x ∧ x ≤ m) :
  convert m (fin x) = fin x
  := by
  rw [convert, if_neg (not_lt.mpr h.2), if_neg (not_lt.mpr h.1)]

end Arithmetic

end Flt

/-- The largest finite value of `float`. -/
def floatMax (K : Type u) [Field K] : K :=
  ((2 ^ 24 - 1) * 2 ^ 104 : ℕ)

/-- The conversions from `double` to `float`: of computed values, and of the positions in the
unit interval used as knots, which are non-decreasing and stay in the interval. -/
structure Rounding (K : Type u) [Field K] [LinearOrder K] where
  toFloat : Flt K → Flt K
  knot : K → K
  knot_mono : ∀ x y, 0 ≤ x → x ≤ y → y ≤ 1 → knot x ≤ knot y
  knot_mem : ∀ x, 0 ≤ x → x ≤ 1 → 0 ≤ knot x ∧ knot x ≤ 1

/-- The reading in which the conversions are exact up to the largest finite value `m`. -/
def Rounding.upTo {K : Type u} [Field K] [LinearOrder K] (m : K) : Rounding K where
  toFloat := Flt.convert m
  knot x := x
  knot_mono _ _ _ h _ := h
  knot_mem _ h₀ h₁ := ⟨h₀, h₁⟩

/-- The reading in which the conversions are exact. -/
def Rounding.exact (K : Type u) [Field K] [LinearOrder K] : Rounding K where
  toFloat v := v
  knot x := x
  knot_mono _ _ _ h _ := h
  knot_mem _ h₀ h₁ := ⟨h₀, h₁⟩
