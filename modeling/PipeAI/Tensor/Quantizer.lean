import PipeAI.Numeric.Loop
import PipeAI.Numeric.Quantization

/-!
# The quantizers

Four functions turn floating-point values into codes of eight bits, and four turn the codes back
into values.  They differ in how they reach the integer that they limit: `std::round` and a
conversion to `int`, or `std::lround` and a narrowing from `long` to `int`.  `IntArith` gathers
the operations on integers whose results depend on the target.

With unbounded integers, all of them are the quantization of `PipeAI.Numeric.Quantization` with
the codes `-128, …, 127`; so the code of a value is a nearest one, and the code of the value of a
code is that code (`Quantizer.nearest`).
-/

universe u

/-- The operations on integers of a target: the conversions of a floating-point value, which is
an integer, to `int` and to `long`, the narrowing from `long` to `int`, and the addition and the
subtraction of `int`. -/
structure IntArith where
  toInt : ℤ → ℤ
  toLong : ℤ → ℤ
  narrow : ℤ → ℤ
  add : ℤ → ℤ → ℤ
  sub : ℤ → ℤ → ℤ

/-- The operations on unbounded integers. -/
def IntArith.unbounded : IntArith where
  toInt k := k
  toLong k := k
  narrow k := k
  add a b := a + b
  sub a b := a - b

variable {K : Type u} [Field K] [LinearOrder K] [FloorRing K] (A : IntArith)

/-! ### The code -/

/-- `Quantizer`. -/
structure Quantizer (K : Type u) where
  scale : K
  zero : ℤ

/-- `Quantizer::quantize`, of a value. -/
def Quantizer.quantize (q : Quantizer K) (v : K) : Int8 :=
  let x := A.add (A.toInt (roundAway (v / q.scale))) q.zero
  Int8.ofInt (max (-128) (min 127 x))

/-- `Quantizer::dequantize`. -/
def Quantizer.dequantize {K : Type u} [Field K] (A : IntArith) (q : Quantizer K) (v : Int8) : K :=
  (A.sub v.toInt q.zero : ℤ) * q.scale

/-- `Quantizer::quantize`, of a vector. -/
def Quantizer.quantizeAll (q : Quantizer K) (input : List K) (out : List Int8) :
    Option (List Int8) :=
  mapInto (q.quantize A) input (out.takeD input.length 0) input.length

/-- `TensorConverter::floatToInt8`. -/
def TensorConverter.floatToInt8 (s : List K) (d : List Int8) (n : ℕ) (scale : K) (zp : ℤ) :
    Option (List Int8) :=
  mapInto (fun x =>
    let q := A.add (A.toInt (roundAway (x / scale))) zp
    let q := max (-128) (min 127 q)
    Int8.ofInt q) s d n

/-- `TensorConverter::int8ToFloat`. -/
def TensorConverter.int8ToFloat {K : Type u} [Field K] (A : IntArith) (s : List Int8) (d : List K)
    (n : ℕ) (scale : K) (zp : ℤ) : Option (List K) :=
  mapInto (fun x => (A.sub x.toInt zp : ℤ) * scale) s d n

/-- `pack_float_to_int8`. -/
def packFloatToInt8 (src : List K) (dst : List Int8) (size : ℤ) (scale : K) (zp : ℤ) :
    Option (List Int8) :=
  mapInto (fun x =>
    let v := A.add (A.toInt (roundAway (x / scale))) zp
    let v := if v > 127 then 127 else v
    let v := if v < -128 then -128 else v
    Int8.ofInt v) src dst size.toNat

/-- `dequant_int8`. -/
def dequantInt8 {K : Type u} [Field K] (A : IntArith) (input : List Int8) (output : List K)
    (size : ℤ) (scale : K) (zero_point : ℤ) : Option (List K) :=
  mapInto (fun x => (A.sub x.toInt zero_point : ℤ) * scale) input output size.toNat

/-- `quantize_int8`. -/
def quantizeInt8 (x : K) (scale : K) (zp : ℤ) : Int8 :=
  let q := A.add (A.narrow (A.toLong (roundAway (x / scale)))) zp
  let q := if q > 127 then 127 else q
  let q := if q < -128 then -128 else q
  Int8.ofInt q

/-- `dequantize_int8`. -/
def dequantizeInt8 {K : Type u} [Field K] (A : IntArith) (x : Int8) (scale : K) (zp : ℤ) : K :=
  (A.sub x.toInt zp : ℤ) * scale

/-! ### Codes of eight bits -/

/-- An integer of eight bits is within its limits. -/
theorem mem_int8 (k : Int8) :
  -128 ≤ k.toInt ∧ k.toInt ≤ 127
  := by
  have hle := k.le_toInt
  have hlt := k.toInt_lt
  omega

/-- A limited integer fits in eight bits. -/
theorem toInt_ofInt_clamp (k : ℤ) :
  (Int8.ofInt (clamp (-128) 127 k)).toInt = clamp (-128) 127 k
  := by
  have hmem := clamp_mem (show (-128 : ℤ) ≤ 127 by decide) k
  apply Int8.toInt_ofInt_of_le <;> omega

/-- The limits that are tested one after the other. -/
theorem ite_eq_clamp (v : ℤ) :
  (if (if v > 127 then 127 else v) < -128 then -128 else (if v > 127 then 127 else v))
    = clamp (-128) 127 v
  := by
  rw [clamp]
  split
  · omega
  · split <;> omega

/-! ### Agreement -/

/-- The code of a value, from the exact integer. -/
def exactCode (scale : K) (zp : ℤ) (v : K) : Int8 :=
  Int8.ofInt (gridCode (-128) 127 scale zp v)

/-- The exact code as an integer. -/
theorem toInt_exactCode (scale : K) (zp : ℤ) (v : K) :
  (exactCode scale zp v).toInt = gridCode (-128) 127 scale zp v
  := toInt_ofInt_clamp _

/-- The four quantizers give the values of an array the codes `code`. -/
structure QuantizersGive (scale : K) (zp : ℤ) (code : K → Int8) (s : List K) : Prop where
  quantize : ∀ v ∈ s, Quantizer.quantize A ⟨scale, zp⟩ v = code v
  quantizeAll : ∀ out, Quantizer.quantizeAll A ⟨scale, zp⟩ s out = some (s.map code)
  floatToInt8 : ∀ (d : List Int8) (n : ℕ), n ≤ s.length → n ≤ d.length →
    TensorConverter.floatToInt8 A s d n scale zp = some ((s.take n).map code ++ d.drop n)
  packFloatToInt8 : ∀ (d : List Int8) (n : ℕ), n ≤ s.length → n ≤ d.length →
    packFloatToInt8 A s d n scale zp = some ((s.take n).map code ++ d.drop n)
  quantizeInt8 : ∀ v ∈ s, quantizeInt8 A v scale zp = code v

/-- Three of the quantizers round and convert to `int`. -/
def roundCode (scale : K) (zp : ℤ) (v : K) : Int8 :=
  Int8.ofInt (clamp (-128) 127 (A.add (A.toInt (roundAway (v / scale))) zp))

/-- One of the quantizers rounds to `long` and narrows to `int`. -/
def lroundCode (scale : K) (zp : ℤ) (v : K) : Int8 :=
  Int8.ofInt (clamp (-128) 127 (A.add (A.narrow (A.toLong (roundAway (v / scale)))) zp))

theorem quantizeInt8_eq (scale : K) (zp : ℤ) (v : K) :
  quantizeInt8 A v scale zp = lroundCode A scale zp v
  := by
  rw [quantizeInt8, lroundCode, ← ite_eq_clamp]

theorem packFloatToInt8_eq (scale : K) (zp : ℤ) (s : List K) (d : List Int8) (n : ℕ) :
  packFloatToInt8 A s d n scale zp = mapInto (roundCode A scale zp) s d n
  := by
  rw [packFloatToInt8, Int.toNat_natCast]
  congr 1
  funext v
  rw [roundCode, ← ite_eq_clamp]

/-- The quantizers give the codes `code` exactly when both ways to round do. -/
theorem quantizersGive_iff {scale : K} {zp : ℤ} {code : K → Int8} {s : List K} :
  QuantizersGive A scale zp code s
    ↔ ∀ v ∈ s, roundCode A scale zp v = code v ∧ lroundCode A scale zp v = code v
  := by
  constructor
  · intro h v hv
    use h.quantize v hv
    rw [← quantizeInt8_eq]
    apply h.quantizeInt8 v hv
  · intro h
    have hmap : ∀ n, (s.take n).map (roundCode A scale zp) = (s.take n).map code := by
      intro n
      apply List.map_congr_left
      intro v hv
      apply (h v (List.mem_of_mem_take hv)).1
    constructor
    · intro v hv
      apply (h v hv).1
    · intro out
      have hlen : (out.takeD s.length 0).length = s.length := List.takeD_length ..
      rw [Quantizer.quantizeAll, mapInto_eq _ le_rfl hlen.ge, List.drop_eq_nil_of_le hlen.le,
        List.append_nil, List.take_length]
      have hall := hmap s.length
      rw [List.take_length] at hall
      apply congrArg some hall
    · intro d n hs hd
      rw [← hmap]
      apply mapInto_eq _ hs hd
    · intro d n hs hd
      rw [← hmap, packFloatToInt8_eq]
      apply mapInto_eq _ hs hd
    · intro v hv
      rw [quantizeInt8_eq]
      apply (h v hv).2

/-! ### Unbounded integers -/

/-- With unbounded integers, all quantizers give the exact codes. -/
theorem quantizersGive_unbounded (scale : K) (zp : ℤ) (s : List K) :
  QuantizersGive .unbounded scale zp (exactCode scale zp) s
  := (quantizersGive_iff _).mpr (fun _ _ => ⟨rfl, rfl⟩)

variable [IsStrictOrderedRing K]

section Nearest

variable {scale : K} (hscale : 0 < scale) (zp : ℤ)

include hscale

/-- The code of the value of a code is that code. -/
theorem exactCode_gridValue (k : Int8) :
  exactCode scale zp (gridValue scale zp k.toInt) = k
  := by
  rw [← Int8.toInt_inj, toInt_exactCode]
  apply gridCode_gridValue hscale zp (mem_int8 k).1 (mem_int8 k).2

/-- The codes of the values of the codes of an array are these codes. -/
theorem map_exactCode_gridValue (codes : List Int8) :
  (codes.map (fun k => gridValue scale zp k.toInt)).map (exactCode scale zp) = codes
  := by
  rw [List.map_map]
  conv_rhs => rw [← List.map_id codes]
  apply List.map_congr_left
  intro k _
  apply exactCode_gridValue hscale

/-- No code has a value nearer to `v` than the code of `v`. -/
theorem not_nearer (v : K) (k : Int8) :
  ¬ |gridValue scale zp k.toInt - v| < |gridValue scale zp (exactCode scale zp v).toInt - v|
  := by
  rw [not_lt, toInt_exactCode]
  apply abs_gridValue_gridCode_sub_le hscale zp (mem_int8 k).1 (mem_int8 k).2

/-- A value between those of the codes `-128` and `127` is within half a step. -/
theorem abs_exactCode_sub_le {v : K} (hlo : gridValue scale zp (-128) ≤ v)
    (hhi : v ≤ gridValue scale zp 127) :
  |gridValue scale zp (exactCode scale zp v).toInt - v| ≤ scale / 2
  := by
  rw [toInt_exactCode]
  apply abs_gridValue_gridCode_sub_le_half hscale zp hlo hhi

/-- A value below that of the code `-128` has this code. -/
theorem exactCode_of_lt {v : K} (hv : v < gridValue scale zp (-128)) :
  exactCode scale zp v = -128
  := by
  rw [← Int8.toInt_inj, toInt_exactCode]
  apply gridCode_of_lt hscale zp (by decide) hv

/-- A value above that of the code `127` has this code. -/
theorem exactCode_of_gt {v : K} (hv : gridValue scale zp 127 < v) :
  exactCode scale zp v = 127
  := by
  rw [← Int8.toInt_inj, toInt_exactCode]
  apply gridCode_of_gt hscale zp (by decide) hv

/-- Quantization to a nearest value of a code: no code has a value nearer to `v` than the code
of `v`; this is within half a step where `v` lies between the values of the codes `-128` and
`127`, and is the nearer one of these codes elsewhere; and the code of the value of a code is that
code, also for arrays of values. -/
theorem Quantizer.nearest :
  let q : Quantizer K := ⟨scale, zp⟩
  let quantize := q.quantize .unbounded
  let dequantize := q.dequantize .unbounded
  (∀ v, (∀ k, ¬ |dequantize k - v| < |dequantize (quantize v) - v|)
      ∧ (dequantize (-128) ≤ v → v ≤ dequantize 127 → |dequantize (quantize v) - v| ≤ scale / 2)
      ∧ (v < dequantize (-128) → quantize v = -128)
      ∧ (dequantize 127 < v → quantize v = 127))
    ∧ (∀ k, quantize (dequantize k) = k)
    ∧ (∀ s out out', ∃ codes, q.quantizeAll .unbounded s out = some codes
      ∧ codes = s.map quantize
      ∧ q.quantizeAll .unbounded (codes.map dequantize) out' = some codes)
    ∧ ∀ (s : List K) (d : List Int8) (f : List K) (n : ℕ), n ≤ s.length → n ≤ d.length →
      n ≤ f.length → ∃ codes values,
        TensorConverter.floatToInt8 .unbounded s d n scale zp = some codes
        ∧ codes = (s.take n).map quantize ++ d.drop n
        ∧ TensorConverter.int8ToFloat .unbounded codes f n scale zp = some values
        ∧ dequantInt8 .unbounded codes f n scale zp = some values
        ∧ values = (codes.take n).map dequantize ++ f.drop n
        ∧ TensorConverter.floatToInt8 .unbounded values codes n scale zp = some codes
  := by
  have hgive := quantizersGive_unbounded scale zp
  refine ⟨?_, ?_, ?_, ?_⟩
  · intro v
    refine ⟨?_, ?_, ?_, ?_⟩
    · apply not_nearer hscale zp v
    · intro hlo hhi
      apply abs_exactCode_sub_le hscale zp hlo hhi
    · intro hv
      apply exactCode_of_lt hscale zp hv
    · intro hv
      apply exactCode_of_gt hscale zp hv
  · intro k
    apply exactCode_gridValue hscale zp k
  · intro s out out'
    refine ⟨_, (hgive s).quantizeAll out, rfl, ?_⟩
    rw [(hgive _).quantizeAll out']
    apply congrArg some
    apply map_exactCode_gridValue hscale
  · intro s d f n hs hd hf
    obtain ⟨codes, values, hfirst, hcodes, hback, hvalues, hagain⟩ :=
      mapInto_roundTrip (exactCode_gridValue hscale zp) hs hd hf
    exact ⟨codes, values, hfirst, hcodes, hback, hback, hvalues, hagain⟩

end Nearest

/-- The theorem for the code 5 in steps of one half with the zero point 3. -/
theorem Quantizer.nearest_half :
  Quantizer.quantize .unbounded ⟨(1 / 2 : ℚ), 3⟩ (Quantizer.dequantize .unbounded ⟨1 / 2, 3⟩ 5) = 5
  := (Quantizer.nearest (by norm_num) 3).2.1 5
