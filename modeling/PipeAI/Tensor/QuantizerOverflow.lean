import PipeAI.Tensor.Quantizer

/-!
# The quantizers on the target

On the target, a floating-point value beyond the range of `int` or of `long` is converted to the
nearest bound, and the narrowing to `int` and the addition of `int` wrap modulo `2 ^ 32`.  The
quantizers limit only the sum, which may have wrapped.

Let `r` be the rounded quotient, and let the zero point be a code.  Where `r + zp` is in the range
of `int`, all quantizers give the exact code.  Beyond, the quantizers with a conversion to `int`
give it just when the zero point does not push the bound further out, and the one that narrows
just when `r` is in the range of `long` and the residue of `r + zp` is beyond the same limit
(`QuantizerOverflow.agree_iff`).
-/

universe u

/-- The operations on integers of the target. -/
def IntArith.aarch64 : IntArith where
  toInt := clamp (-2 ^ 31) (2 ^ 31 - 1)
  toLong := clamp (-2 ^ 63) (2 ^ 63 - 1)
  narrow k := k.bmod (2 ^ 32)
  add a b := (a + b).bmod (2 ^ 32)
  sub a b := (a - b).bmod (2 ^ 32)

namespace QuantizerOverflow

/-- The condition on the rounded quotient `r` and the zero point: their sum is in the range of
`int`; or above it, with a zero point that is not positive, where `r` is in the range of `long` and
the residue of the sum modulo `2 ^ 32` is that of an `int` which is at least 127; or below it,
with a zero point that is not negative, where `r` is in the range of `long` and the residue is that
of an `int` which is at most -128. -/
def Fits (r zp : ℤ) : Prop :=
  -2 ^ 31 ≤ r + zp ∧ r + zp < 2 ^ 31
    ∨ 2 ^ 31 ≤ r + zp ∧ zp ≤ 0 ∧ r < 2 ^ 63
      ∧ 127 ≤ (r + zp) % 2 ^ 32 ∧ (r + zp) % 2 ^ 32 < 2 ^ 31
    ∨ r + zp < -2 ^ 31 ∧ 0 ≤ zp ∧ -2 ^ 63 ≤ r
      ∧ 2 ^ 31 ≤ (r + zp) % 2 ^ 32 ∧ (r + zp) % 2 ^ 32 ≤ 2 ^ 32 - 128

/-- The integer of 32 bits with the residue of `k`. -/
theorem bmod_two_pow_32 (k : ℤ) :
  k.bmod (2 ^ 32) = if k % 2 ^ 32 < 2 ^ 31 then k % 2 ^ 32 else k % 2 ^ 32 - 2 ^ 32
  := by
  rw [Int.bmod]
  norm_num

section Routes

variable {r zp : ℤ} (hlo : -128 ≤ zp) (hhi : zp ≤ 127)

include hlo hhi

/-- The sum of the quotient converted to `int` and the zero point is limited to the exact code
unless the zero point pushes the bound of `int` further out. -/
theorem clamp_toInt_iff :
  clamp (-128) 127 (IntArith.aarch64.add (IntArith.aarch64.toInt r) zp)
      = clamp (-128) 127 (r + zp)
    ↔ (zp ≤ 0 ∨ r + zp < 2 ^ 31) ∧ (0 ≤ zp ∨ -2 ^ 31 ≤ r + zp)
  := by
  simp only [IntArith.aarch64, clamp, bmod_two_pow_32]
  split <;> omega

/-- The sum of the quotient converted to `long`, and narrowed to `int`, and the zero point is
limited to the exact code where the sum is in the range of `int`, or its residue is beyond the same
limit and the quotient in the range of `long`; or else where the zero point alone is the limit. -/
theorem clamp_narrow_iff :
  clamp (-128) 127 (IntArith.aarch64.add
      (IntArith.aarch64.narrow (IntArith.aarch64.toLong r)) zp)
      = clamp (-128) 127 (r + zp)
    ↔ -2 ^ 31 ≤ r + zp ∧ r + zp < 2 ^ 31
      ∨ 2 ^ 31 ≤ r + zp ∧ r < 2 ^ 63 ∧ 127 ≤ (r + zp) % 2 ^ 32 ∧ (r + zp) % 2 ^ 32 < 2 ^ 31
      ∨ r + zp < -2 ^ 31 ∧ -2 ^ 63 ≤ r
        ∧ 2 ^ 31 ≤ (r + zp) % 2 ^ 32 ∧ (r + zp) % 2 ^ 32 ≤ 2 ^ 32 - 128
      ∨ r < -2 ^ 63 ∧ zp = -128
  := by
  simp only [IntArith.aarch64, clamp]
  rw [Int.bmod_add_bmod, bmod_two_pow_32]
  split <;> omega

/-- The quantizers that convert to `int` and the one that narrows to it limit to the exact code
under the condition `Fits`, and only then. -/
theorem clamp_iff_fits :
  clamp (-128) 127 (IntArith.aarch64.add (IntArith.aarch64.toInt r) zp)
      = clamp (-128) 127 (r + zp)
      ∧ clamp (-128) 127 (IntArith.aarch64.add
        (IntArith.aarch64.narrow (IntArith.aarch64.toLong r)) zp)
        = clamp (-128) 127 (r + zp)
    ↔ Fits r zp
  := by
  rw [clamp_toInt_iff hlo hhi, clamp_narrow_iff hlo hhi, Fits]
  omega

end Routes

/-! ### Codes -/

/-- Limited integers are equal when they are as codes. -/
theorem ofInt_clamp_inj {a b : ℤ} :
  Int8.ofInt (clamp (-128) 127 a) = Int8.ofInt (clamp (-128) 127 b)
    ↔ clamp (-128) 127 a = clamp (-128) 127 b
  := by
  rw [← Int8.toInt_inj, toInt_ofInt_clamp, toInt_ofInt_clamp]

variable {K : Type u} [Field K] [LinearOrder K] [FloorRing K]

/-- The quantizers give the values of an array the exact codes if and only if each of the rounded
quotients meets the condition `Fits`. -/
theorem quantizersGive_iff_fits (scale : K) {zp : ℤ} (hlo : -128 ≤ zp) (hhi : zp ≤ 127)
    (s : List K) :
  QuantizersGive .aarch64 scale zp (exactCode scale zp) s
    ↔ ∀ v ∈ s, Fits (roundAway (v / scale)) zp
  := by
  rw [quantizersGive_iff]
  apply forall₂_congr
  intro v _
  rw [roundCode, lroundCode, exactCode, gridCode, ofInt_clamp_inj, ofInt_clamp_inj,
    clamp_iff_fits hlo hhi]

/-- For a zero point that is a code, the quantizers give the values of an array the exact codes if
and only if each of the rounded quotients meets the condition `Fits`; and the codes that they give
under this condition are in the order of the values. -/
theorem agree_iff [IsStrictOrderedRing K] {scale : K} (hscale : 0 < scale) {zp : ℤ}
    (hlo : -128 ≤ zp) (hhi : zp ≤ 127) :
  (∀ s, QuantizersGive .aarch64 scale zp (exactCode scale zp) s
      ↔ ∀ v ∈ s, Fits (roundAway (v / scale)) zp)
    ∧ ∀ v v', v ≤ v' → Fits (roundAway (v / scale)) zp → Fits (roundAway (v' / scale)) zp →
      ∃ code, QuantizersGive .aarch64 scale zp code [v, v'] ∧ (code v).toInt ≤ (code v').toInt
  := by
  use quantizersGive_iff_fits scale hlo hhi
  intro v v' hle hfits hfits'
  use exactCode scale zp
  constructor
  · rw [quantizersGive_iff_fits scale hlo hhi]
    simp [hfits, hfits']
  · rw [toInt_exactCode, toInt_exactCode]
    apply gridCode_mono hscale zp hle

/-- The theorem for the value 3 in steps of 1 with the zero point 1. -/
theorem agree_iff_three :
  QuantizersGive .aarch64 (1 : ℚ) 1 (exactCode 1 1) [3]
    ↔ ∀ v ∈ [(3 : ℚ)], Fits (roundAway (v / 1)) 1
  := (agree_iff zero_lt_one (by decide) (by decide)).1 [3]

/-- For the value `2 ^ 31` in steps of 1, the quantizers give different codes with the zero point
0, and all of them give the code -128 instead of 127 with the zero point 1. -/
theorem not_agree_two_pow_31 :
  Quantizer.quantize .aarch64 ⟨(1 : ℚ), 0⟩ (2 ^ 31) = 127
    ∧ quantizeInt8 .aarch64 (2 ^ 31 : ℚ) 1 0 = -128
    ∧ exactCode (1 : ℚ) 1 (2 ^ 31) = 127
    ∧ Quantizer.quantize .aarch64 ⟨(1 : ℚ), 1⟩ (2 ^ 31) = -128
    ∧ TensorConverter.floatToInt8 .aarch64 [(2 ^ 31 : ℚ)] [0] 1 1 1 = some [-128]
    ∧ packFloatToInt8 .aarch64 [(2 ^ 31 : ℚ)] [0] 1 1 1 = some [-128]
    ∧ quantizeInt8 .aarch64 (2 ^ 31 : ℚ) 1 1 = -128
  := by
  decide +kernel

end QuantizerOverflow
