import PipeAI.Algorithm.Robustness
import PipeAI.Tensor.QuantizerOverflow

/-!
# Windows in eight bits

A window that is converted to codes of eight bits by `TensorConverter::floatToInt8`, and back by
`TensorConverter::int8ToFloat`, is disturbed by at most half a step where its values lie between
those of the codes `-128` and `127`, also with the integers of the target
(`exists_converted`).  So a class that is ahead by more than the gain of the network times the step
is kept (`class_of_quantized`).
-/

open Layers NetTraining QuantizerOverflow

/-! ### The conversion of an array -/

section Converted

variable {K : Type} [Field K] [LinearOrder K] [FloorRing K] [IsStrictOrderedRing K]
  {scale : K} (hscale : 0 < scale) {zp : ℤ}

include hscale

/-- The integer that a value between those of the codes `-128` and `127` is rounded to does not
overflow. -/
theorem fits_of_mem {v : K} (hv : gridValue scale zp (-128) ≤ v)
    (hv' : v ≤ gridValue scale zp 127) :
  Fits (roundAway (v / scale)) zp
  := by
  have hlo : ((-128 - zp : ℤ) : K) ≤ v / scale := (le_div_iff₀ hscale).mpr hv
  have hhi : v / scale ≤ ((127 - zp : ℤ) : K) := (div_le_iff₀ hscale).mpr hv'
  have hround := roundAway_mono hlo
  have hround' := roundAway_mono hhi
  rw [roundAway_intCast] at hround hround'
  left
  omega

omit [LinearOrder K] [FloorRing K] [IsStrictOrderedRing K] hscale in
/-- The difference of a code and a zero point does not overflow. -/
theorem sub_aarch64 (hlo : -128 ≤ zp) (hhi : zp ≤ 127) (k : Int8) :
  (IntArith.aarch64.sub k.toInt zp : ℤ) * scale = gridValue scale zp k.toInt
  := by
  have hk := mem_int8 k
  have hsub : IntArith.aarch64.sub k.toInt zp = k.toInt - zp := by
    simp only [IntArith.aarch64, bmod_two_pow_32]
    split <;> omega
  rw [hsub, gridValue]

/-- The conversion to codes and back succeeds, and changes values between those of the codes `-128`
and `127` by at most half a step. -/
theorem exists_converted (hlo : -128 ≤ zp) (hhi : zp ≤ 127) {s : List K}
    (hs : ∀ v ∈ s, gridValue scale zp (-128) ≤ v ∧ v ≤ gridValue scale zp 127) {d : List Int8}
    {f : List K} (hd : d.length = s.length) (hf : f.length = s.length) :
  ∃ codes values, TensorConverter.floatToInt8 .aarch64 s d s.length scale zp = some codes
    ∧ TensorConverter.int8ToFloat .aarch64 codes f s.length scale zp = some values
    ∧ List.Forall₂ (fun v w => |w - v| ≤ scale / 2) s values
  := by
  have hgive := (quantizersGive_iff_fits scale hlo hhi s).mpr
    (fun v hv => fits_of_mem hscale (hs v hv).1 (hs v hv).2)
  have hcodes : TensorConverter.floatToInt8 .aarch64 s d s.length scale zp
      = some (s.map (exactCode scale zp)) := by
    rw [hgive.floatToInt8 d s.length le_rfl hd.ge, List.take_length,
      List.drop_eq_nil_of_le hd.le, List.append_nil]
  have hvalues : TensorConverter.int8ToFloat .aarch64 (s.map (exactCode scale zp)) f s.length
        scale zp
      = some ((s.map (exactCode scale zp)).map (fun k => gridValue scale zp k.toInt)) := by
    have hlen : s.length = (s.map (exactCode scale zp)).length := (List.length_map _).symm
    have hsub : (fun x : Int8 => (IntArith.aarch64.sub x.toInt zp : ℤ) * scale)
        = fun k => gridValue scale zp k.toInt := funext (sub_aarch64 hlo hhi)
    rw [TensorConverter.int8ToFloat, mapInto_eq _ hlen.le hf.ge, hsub,
      List.drop_eq_nil_of_le hf.le, List.append_nil, List.take_of_length_le hlen.ge]
  refine ⟨_, _, hcodes, hvalues, ?_⟩
  rw [List.map_map, List.forall₂_map_right_iff, List.forall₂_same]
  intro v hv
  apply abs_exactCode_sub_le hscale zp (hs v hv).1 (hs v hv).2

end Converted

/-! ### The conversion of a window -/

namespace NetTraining

variable {T : ℕ}

/-- The values of a window in the order of the memory, row by row. -/
def flatten {K : Type} (x : Window K T) : List K :=
  List.ofFn (fun i : Fin (T * 9) => x i.divNat i.modNat)

/-- The window of values in the order of the memory. -/
def windowOf {K : Type} [Zero K] (T : ℕ) (values : List K) : Window K T :=
  fun t c => values.getD (finProdFinEquiv (t, c)) 0

/-- A value of a window has its place in the memory. -/
theorem getElem?_flatten {K : Type} (x : Window K T) (t : Fin T) (c : Fin 9) :
  (flatten x)[(finProdFinEquiv (t, c) : ℕ)]? = some (x t c)
  := by
  have hpair := finProdFinEquiv.symm_apply_apply (t, c)
  rw [finProdFinEquiv_symm_apply, Prod.mk.injEq] at hpair
  rw [flatten, List.getElem?_ofFn, dif_pos (finProdFinEquiv (t, c)).isLt, Fin.eta, hpair.1,
    hpair.2]

end NetTraining

/-- A window whose values lie between those of the codes `-128` and `127` keeps its class when it is
converted to codes and back, if the class is ahead of the others by more than the gain of the
network times the step. -/
theorem class_of_quantized {cfg : Config ℝ} {n T : ℕ} (net : End2EndPipeNet ℝ cfg (n + 1))
    {scale : ℝ} (hscale : 0 < scale) {zp : ℤ} (hlo : -128 ≤ zp) (hhi : zp ≤ 127)
    (x : Window ℝ (T + 1))
    (hx : ∀ t c, (-128 - zp) * scale ≤ x t c ∧ x t c ≤ (127 - zp) * scale)
    {d : List Int8} {f : List ℝ} (hd : d.length = (flatten x).length)
    (hf : f.length = (flatten x).length) :
  ∃ codes values,
    TensorConverter.floatToInt8 .aarch64 (flatten x) d (flatten x).length scale zp = some codes
      ∧ TensorConverter.int8ToFloat .aarch64 codes f (flatten x).length scale zp = some values
      ∧ (∀ k, |net.windowLogits Functions.real x k
            - net.windowLogits Functions.real (windowOf (T + 1) values) k|
          ≤ net.gain Functions.real * (scale / 2))
      ∧ ∀ k, (∀ l, l ≠ k → net.windowLogits Functions.real x l
            + net.gain Functions.real * scale < net.windowLogits Functions.real x k) →
          argmax (net.windowLogits Functions.real x) = k
            ∧ argmax (net.windowLogits Functions.real (windowOf (T + 1) values)) = k
  := by
  have hgrid : ∀ v ∈ flatten x, gridValue scale zp (-128) ≤ v ∧ v ≤ gridValue scale zp 127 := by
    intro v hv
    rw [flatten, List.mem_ofFn] at hv
    obtain ⟨i, rfl⟩ := hv
    have h := hx i.divNat i.modNat
    rw [gridValue, gridValue]
    push_cast
    exact h
  obtain ⟨codes, values, hcodes, hvalues, hclose⟩ :=
    exists_converted hscale hlo hhi hgrid hd hf
  have hdist : ∀ t c, |x t c - windowOf (T + 1) values t c| ≤ scale / 2 := by
    intro t c
    have hv := getElem?_flatten x t c
    obtain ⟨hlt, hget⟩ := List.getElem?_eq_some_iff.mp hv
    have hle := (List.forall₂_iff_get.mp hclose).2 _ hlt (hclose.length_eq ▸ hlt)
    simp only [List.get_eq_getElem, hget] at hle
    rw [windowOf, List.getD_eq_getElem?_getD, List.getElem?_eq_getElem (hclose.length_eq ▸ hlt),
      Option.getD_some, abs_sub_comm]
    apply hle
  have hlogits := net.abs_forward_sub_le (x := fun _ : Fin 1 => x)
    (y := fun _ : Fin 1 => windowOf (T + 1) values) (n := 0) (m := 0) hdist
  refine ⟨codes, values, hcodes, hvalues, hlogits, ?_⟩
  intro k hk
  apply argmax_eq_of_margin hlogits
  intro l hl
  have hlt := hk l hl
  have htwo : 2 * (net.gain Functions.real * (scale / 2)) = net.gain Functions.real * scale := by
    ring
  rw [htwo]
  apply hlt

/-- The theorem for a window whose values increase by 1, in steps of 2 with the zero point -100, and a
network that prefers the first class. -/
theorem class_of_quantized_steps :
  ∃ net : End2EndPipeNet ℝ Config.default 2, 0 < net.gain Functions.real
    ∧ ∃ codes values,
      TensorConverter.floatToInt8 .aarch64 (flatten (fun t _ => 150 + (t : ℕ) : Window ℝ (127 + 1)))
          (List.replicate 1152 0) 1152 (2 : ℝ) (-100) = some codes
        ∧ TensorConverter.int8ToFloat .aarch64 codes (List.replicate 1152 0) 1152 (2 : ℝ) (-100)
          = some values
        ∧ (∀ k, |net.windowLogits Functions.real (fun t _ => 150 + (t : ℕ) : Window ℝ (127 + 1)) k
              - net.windowLogits Functions.real (windowOf (127 + 1) values) k|
            ≤ net.gain Functions.real * (2 / 2))
        ∧ argmax (net.windowLogits Functions.real (windowOf (127 + 1) values)) = 0
  := by
  let x : Window ℝ (127 + 1) := fun t _ => 150 + (t : ℕ)
  have hlo : (-128 : ℤ) ≤ -100 := by decide
  have hhi : (-100 : ℤ) ≤ 127 := by decide
  have hx : ∀ t c, (-128 - (-100 : ℤ)) * (2 : ℝ) ≤ x t c ∧ x t c ≤ (127 - (-100 : ℤ)) * (2 : ℝ) := by
    intro t c
    have hnonneg : (0 : ℝ) ≤ (t : ℕ) := Nat.cast_nonneg _
    have hle : ((t : ℕ) : ℝ) ≤ 127 := by
      exact_mod_cast Nat.lt_succ_iff.mp t.isLt
    push_cast
    simp only [x]
    constructor <;> linarith
  have hlen : (flatten x).length = 1152 := List.length_ofFn
  have hd : (List.replicate 1152 (0 : Int8)).length = (flatten x).length := by
    rw [hlen, List.length_replicate]
  have hf : (List.replicate 1152 (0 : ℝ)).length = (flatten x).length := by
    rw [hlen, List.length_replicate]
  obtain ⟨codes, values, hcodes, hvalues, hlogits, hclass⟩ :=
    class_of_quantized (n := 1) (.preferring Config.default 0 2) (two_pos (α := ℝ)) hlo hhi x hx
      hd hf
  rw [hlen] at hcodes hvalues
  refine ⟨_, End2EndPipeNet.gain_preferring_pos 0 2, codes, values, hcodes, hvalues, hlogits,
    (hclass 0 ?_).2⟩
  intro l hl
  rw [mul_comm]
  apply End2EndPipeNet.margin_preferring hl
