import Mathlib.Analysis.Normed.Group.Uniform
import Mathlib.Analysis.Normed.Ring.Basic
import Mathlib.Topology.MetricSpace.Lipschitz
import PipeAI.Numeric.Shares

/-!
# Layers of neural networks

The layers of a convolutional network when it is evaluated: convolutions in one and two dimensions
with groups, strides and zeros at the borders, the affine maps of a batch normalization with its
running statistics, rectification, means and linear layers.

Each layer changes distances at most by a factor that is computed from its weights, its `gain`; the
distance of two arrays is the largest distance of their entries.  Layers one after the other have
the product of their gains.
-/

universe u

open scoped BigOperators NNReal

namespace Layers

/-! ### The layers -/

section Definitions

variable {K : Type u}

/-- A signal with `C` channels of length `L`. -/
abbrev Signal (K : Type u) (C L : ℕ) : Type u :=
  Fin C → Fin L → K

/-- An image with `C` channels of height `H` and width `W`. -/
abbrev Image (K : Type u) (C H W : ℕ) : Type u :=
  Fin C → Fin H → Fin W → K

/-- The number of places at which a kernel of length `k` is applied. -/
def convLength (L k stride padding : ℕ) : ℕ :=
  (L + 2 * padding - k) / stride + 1

/-- The entry of an array at an index, and zero outside of the array. -/
def entry [Zero K] {n : ℕ} (x : Fin n → K) (i : ℕ) : K :=
  if h : i < n then x ⟨i, h⟩ else 0

/-- The entry at `p` of an array with `padding` zeros before and behind it. -/
def padded [Zero K] {n : ℕ} (padding : ℕ) (x : Fin n → K) (p : ℕ) : K :=
  if p < padding then 0 else entry x (p - padding)

/-- The input channel number `g` of those that the output channel `d` is computed from. -/
def groupChannel (C D groups d g : ℕ) : ℕ :=
  d / (D / groups) * (C / groups) + g

variable [Field K]

/-- A convolution in one dimension, without bias. -/
def conv1d {C D k L : ℕ} (groups stride padding : ℕ) (w : Fin D → Fin (C / groups) → Fin k → K)
    (x : Signal K C L) : Signal K D (convLength L k stride padding) :=
  fun d l => ∑ g, ∑ j, w d g j
    * entry (fun c => padded padding (x c) (l * stride + j)) (groupChannel C D groups d g)

/-- A convolution in two dimensions, without bias. -/
def conv2d {C D k H W : ℕ} (groups stride padding : ℕ)
    (w : Fin D → Fin (C / groups) → Fin k → Fin k → K) (x : Image K C H W) :
    Image K D (convLength H k stride padding) (convLength W k stride padding) :=
  fun d r s => ∑ g, ∑ i, ∑ j, w d g i j
    * entry (fun c => padded padding (fun y => padded padding (x c y) (s * stride + j))
      (r * stride + i)) (groupChannel C D groups d g)

/-- The parameters of a batch normalization. -/
structure BatchNorm (K : Type u) (C : ℕ) where
  weight : Fin C → K
  bias : Fin C → K
  running_mean : Fin C → K
  running_var : Fin C → K

/-- The parameters before the training. -/
def BatchNorm.initial {C : ℕ} : BatchNorm K C :=
  ⟨1, 0, 0, 1⟩

/-- A batch normalization of a value of a channel, with the running statistics. -/
def BatchNorm.apply {C : ℕ} (sqrt : K → K) (bn : BatchNorm K C) (c : Fin C) (v : K) : K :=
  (v - bn.running_mean c) / sqrt (bn.running_var c + ((1e-5 : ℚ) : K)) * bn.weight c + bn.bias c

/-- The parameters of a linear layer. -/
structure LinearLayer (K : Type u) (I O : ℕ) where
  weight : Fin O → Fin I → K
  bias : Fin O → K

/-- A linear layer. -/
def LinearLayer.apply {I O : ℕ} (layer : LinearLayer K I O) (x : Fin I → K) : Fin O → K :=
  fun o => ∑ i, layer.weight o i * x i + layer.bias o

/-- The mean of a channel of a signal. -/
def mean1d {C L : ℕ} (x : Signal K C L) : Fin C → K :=
  fun c => (∑ l, x c l) / (L : ℕ)

/-- The mean of a channel of an image. -/
def mean2d {C H W : ℕ} (x : Image K C H W) : Fin C → K :=
  fun c => (∑ y, ∑ z, x c y z) / ((H * W : ℕ) : K)

/-- Rectification. -/
def rectify [LinearOrder K] (v : K) : K :=
  max v 0

end Definitions

/-! ### Sums of maps -/

section Sums

variable {α : Type u} [PseudoMetricSpace α]

/-- A map into arrays is as steep as its entries. -/
theorem lipschitzWith_pi {ι : Type} [Fintype ι] {β : ι → Type} [∀ i, PseudoMetricSpace (β i)]
    {L : ℝ≥0} {f : α → ∀ i, β i} (h : ∀ i, LipschitzWith L (fun x => f x i)) :
  LipschitzWith L f
  := by
  apply LipschitzWith.of_dist_le_mul
  intro x y
  rw [dist_pi_le_iff (by positivity)]
  intro i
  apply (h i).dist_le_mul

/-- A sum of maps is as steep as all of them together. -/
theorem lipschitzWith_sum {ι : Type} [Fintype ι] {L : ι → ℝ≥0} {f : ι → α → ℝ}
    (h : ∀ i, LipschitzWith (L i) (f i)) :
  LipschitzWith (∑ i, L i) (fun x => ∑ i, f i x)
  := by
  apply LipschitzWith.of_dist_le_mul
  intro x y
  calc
    dist (∑ i, f i x) (∑ i, f i y) ≤ ∑ i, dist (f i x) (f i y) := dist_sum_sum_le _ _ _
    _ ≤ ∑ i, (L i : ℝ) * dist x y := Finset.sum_le_sum (fun i _ => (h i).dist_le_mul x y)
    _ = ((∑ i, L i : ℝ≥0) : ℝ) * dist x y := by rw [← Finset.sum_mul, NNReal.coe_sum]

/-- A multiple of a map. -/
theorem lipschitzWith_mul {L : ℝ≥0} {f : α → ℝ} (h : LipschitzWith L f) (a : ℝ) :
  LipschitzWith (‖a‖₊ * L) (fun x => a * f x)
  := by
  apply LipschitzWith.of_dist_le_mul
  intro x y
  rw [Real.dist_eq, ← mul_sub, abs_mul, NNReal.coe_mul, mul_assoc]
  apply mul_le_mul_of_nonneg_left _ (abs_nonneg a)
  apply h.dist_le_mul

/-- A weighted sum of maps that do not increase distances. -/
theorem lipschitzWith_weightedSum {ι : Type} [Fintype ι] (w : ι → ℝ) {f : ι → α → ℝ}
    (h : ∀ i, LipschitzWith 1 (f i)) :
  LipschitzWith (∑ i, ‖w i‖₊) (fun x => ∑ i, w i * f i x)
  := by
  apply lipschitzWith_sum
  intro i
  have hmul := lipschitzWith_mul (h i) (w i)
  rw [mul_one] at hmul
  apply hmul

end Sums

/-! ### Gains -/

section Gains

variable {α : Type u} [PseudoMetricSpace α]

/-- An entry of a map into arrays. -/
theorem lipschitzWith_entry {n : ℕ} {L : ℝ≥0} {f : Fin n → α → ℝ}
    (h : ∀ i, LipschitzWith L (f i)) (i : ℕ) :
  LipschitzWith L (fun x => entry (fun c => f c x) i)
  := by
  simp only [entry]
  split
  · apply h
  · apply (LipschitzWith.const 0).weaken zero_le

/-- A padded entry of a map into arrays. -/
theorem lipschitzWith_padded {n : ℕ} {L : ℝ≥0} {f : Fin n → α → ℝ}
    (h : ∀ i, LipschitzWith L (f i)) (padding p : ℕ) :
  LipschitzWith L (fun x => padded padding (fun c => f c x) p)
  := by
  simp only [padded]
  split
  · apply (LipschitzWith.const 0).weaken zero_le
  · apply lipschitzWith_entry h

omit [PseudoMetricSpace α] in
/-- The entries of an array of arrays do not increase distances. -/
theorem lipschitzWith_eval_eval {ι κ : Type} [Fintype ι] [Fintype κ] (i : ι) (j : κ) :
  LipschitzWith 1 (fun x : ι → κ → ℝ => x i j)
  := by
  have hcomp := (LipschitzWith.eval (α := fun _ => ℝ) j).comp
    (LipschitzWith.eval (α := fun _ => κ → ℝ) i)
  rw [one_mul] at hcomp
  apply hcomp

omit [PseudoMetricSpace α] in
/-- The pixels of an image do not increase distances. -/
theorem lipschitzWith_pixel {C H W : ℕ} (c : Fin C) (y : Fin H) (z : Fin W) :
  LipschitzWith 1 (fun x : Image ℝ C H W => x c y z)
  := by
  have hcomp := (lipschitzWith_eval_eval y z).comp
    (LipschitzWith.eval (α := fun _ => Fin H → Fin W → ℝ) c)
  rw [one_mul] at hcomp
  apply hcomp

/-- The gain of a convolution in one dimension. -/
noncomputable def conv1dGain {D G k : ℕ} (w : Fin D → Fin G → Fin k → ℝ) : ℝ≥0 :=
  Finset.univ.sup (fun d => ∑ g, ∑ j, ‖w d g j‖₊)

theorem lipschitzWith_conv1d {C D k L : ℕ} (groups stride padding : ℕ)
    (w : Fin D → Fin (C / groups) → Fin k → ℝ) :
  LipschitzWith (conv1dGain w) (conv1d (L := L) groups stride padding w)
  := by
  apply lipschitzWith_pi
  intro d
  apply lipschitzWith_pi
  intro l
  have hle : ∑ g, ∑ j, ‖w d g j‖₊ ≤ conv1dGain w :=
    Finset.le_sup (f := fun d => ∑ g, ∑ j, ‖w d g j‖₊) (Finset.mem_univ d)
  apply LipschitzWith.weaken _ hle
  apply lipschitzWith_sum
  intro g
  apply lipschitzWith_weightedSum
  intro j
  apply lipschitzWith_entry
  intro c
  apply lipschitzWith_padded
  intro i
  apply lipschitzWith_eval_eval

/-- The gain of a convolution in two dimensions. -/
noncomputable def conv2dGain {D G k : ℕ} (w : Fin D → Fin G → Fin k → Fin k → ℝ) : ℝ≥0 :=
  Finset.univ.sup (fun d => ∑ g, ∑ i, ∑ j, ‖w d g i j‖₊)

theorem lipschitzWith_conv2d {C D k H W : ℕ} (groups stride padding : ℕ)
    (w : Fin D → Fin (C / groups) → Fin k → Fin k → ℝ) :
  LipschitzWith (conv2dGain w) (conv2d (H := H) (W := W) groups stride padding w)
  := by
  apply lipschitzWith_pi
  intro d
  apply lipschitzWith_pi
  intro r
  apply lipschitzWith_pi
  intro s
  have hle : ∑ g, ∑ i, ∑ j, ‖w d g i j‖₊ ≤ conv2dGain w :=
    Finset.le_sup (f := fun d => ∑ g, ∑ i, ∑ j, ‖w d g i j‖₊) (Finset.mem_univ d)
  apply LipschitzWith.weaken _ hle
  apply lipschitzWith_sum
  intro g
  apply lipschitzWith_sum
  intro i
  apply lipschitzWith_weightedSum
  intro j
  apply lipschitzWith_entry
  intro c
  apply lipschitzWith_padded
  intro y
  apply lipschitzWith_padded
  intro z
  apply lipschitzWith_pixel

/-- The gain of a batch normalization. -/
noncomputable def BatchNorm.gain {C : ℕ} (sqrt : ℝ → ℝ) (bn : BatchNorm ℝ C) : ℝ≥0 :=
  Finset.univ.sup (fun c => ‖bn.weight c / sqrt (bn.running_var c + ((1e-5 : ℚ) : ℝ))‖₊)

theorem lipschitzWith_batchNorm {C : ℕ} (sqrt : ℝ → ℝ) (bn : BatchNorm ℝ C) (c : Fin C) :
  LipschitzWith (bn.gain sqrt) (bn.apply sqrt c)
  := by
  have hle : ‖bn.weight c / sqrt (bn.running_var c + ((1e-5 : ℚ) : ℝ))‖₊ ≤ bn.gain sqrt :=
    Finset.le_sup (f := fun c => ‖bn.weight c / sqrt (bn.running_var c + ((1e-5 : ℚ) : ℝ))‖₊)
      (Finset.mem_univ c)
  apply LipschitzWith.weaken _ hle
  apply LipschitzWith.of_dist_le_mul
  intro v v'
  rw [Real.dist_eq, Real.dist_eq, coe_nnnorm, Real.norm_eq_abs, ← abs_mul]
  apply le_of_eq
  congr 1
  rw [BatchNorm.apply, BatchNorm.apply]
  ring

theorem lipschitzWith_rectify :
  LipschitzWith 1 (rectify : ℝ → ℝ)
  := LipschitzWith.id.max_const 0

/-- The gain of a linear layer. -/
noncomputable def LinearLayer.gain {I O : ℕ} (layer : LinearLayer ℝ I O) : ℝ≥0 :=
  Finset.univ.sup (fun o => ∑ i, ‖layer.weight o i‖₊)

theorem lipschitzWith_linear {I O : ℕ} (layer : LinearLayer ℝ I O) :
  LipschitzWith layer.gain layer.apply
  := by
  apply lipschitzWith_pi
  intro o
  have hle : ∑ i, ‖layer.weight o i‖₊ ≤ layer.gain :=
    Finset.le_sup (f := fun o => ∑ i, ‖layer.weight o i‖₊) (Finset.mem_univ o)
  apply LipschitzWith.weaken _ hle
  have hsum := lipschitzWith_weightedSum (layer.weight o)
    (fun i => LipschitzWith.eval (α := fun _ => ℝ) i)
  have hadd := hsum.add (LipschitzWith.const (layer.bias o))
  rw [add_zero] at hadd
  apply hadd

omit [PseudoMetricSpace α] in
/-- A kernel with an entry that is not zero has a positive gain. -/
theorem conv2dGain_pos {D G k : ℕ} {w : Fin D → Fin G → Fin k → Fin k → ℝ} {d : Fin D}
    {g : Fin G} {i j : Fin k} (h : w d g i j ≠ 0) :
  0 < conv2dGain w
  := by
  simp only [conv2dGain, Finset.lt_sup_iff, Finset.sum_pos_iff, nnnorm_pos]
  exact ⟨d, Finset.mem_univ d, g, Finset.mem_univ g, i, Finset.mem_univ i, j, Finset.mem_univ j, h⟩

omit [PseudoMetricSpace α] in
/-- A batch normalization with a weight and a deviation that are not zero has a positive gain. -/
theorem BatchNorm.gain_pos {C : ℕ} {sqrt : ℝ → ℝ} {bn : BatchNorm ℝ C} {c : Fin C}
    (hweight : bn.weight c ≠ 0) (hsqrt : sqrt (bn.running_var c + ((1e-5 : ℚ) : ℝ)) ≠ 0) :
  0 < bn.gain sqrt
  := by
  simp only [BatchNorm.gain, Finset.lt_sup_iff, nnnorm_pos]
  exact ⟨c, Finset.mem_univ c, div_ne_zero hweight hsqrt⟩

omit [PseudoMetricSpace α] in
/-- A linear layer with a weight that is not zero has a positive gain. -/
theorem LinearLayer.gain_pos {I O : ℕ} {layer : LinearLayer ℝ I O} {o : Fin O} {i : Fin I}
    (h : layer.weight o i ≠ 0) :
  0 < layer.gain
  := by
  simp only [LinearLayer.gain, Finset.lt_sup_iff, Finset.sum_pos_iff, nnnorm_pos]
  exact ⟨o, Finset.mem_univ o, i, Finset.mem_univ i, h⟩

/-- A mean of maps is as steep as these. -/
theorem lipschitzWith_mean {ι : Type} [Fintype ι] {L : ℝ≥0} {f : ι → α → ℝ}
    (h : ∀ i, LipschitzWith L (f i)) :
  LipschitzWith L (fun x => (∑ i, f i x) / (Fintype.card ι : ℝ))
  := by
  cases isEmpty_or_nonempty ι
  · simp only [Finset.univ_eq_empty, Finset.sum_empty, zero_div]
    apply (LipschitzWith.const 0).weaken zero_le
  apply LipschitzWith.of_dist_le_mul
  intro x y
  rw [Real.dist_eq, ← sub_div, ← Finset.sum_sub_distrib]
  apply abs_sum_div_card_le
  intro i
  have hle := (h i).dist_le_mul x y
  rw [Real.dist_eq] at hle
  apply hle

theorem lipschitzWith_mean1d {C L : ℕ} :
  LipschitzWith 1 (mean1d : Signal ℝ C L → Fin C → ℝ)
  := by
  apply lipschitzWith_pi
  intro c
  have hmean := lipschitzWith_mean (fun l : Fin L => lipschitzWith_eval_eval c l)
  rw [Fintype.card_fin] at hmean
  apply hmean

theorem lipschitzWith_mean2d {C H W : ℕ} :
  LipschitzWith 1 (mean2d : Image ℝ C H W → Fin C → ℝ)
  := by
  apply lipschitzWith_pi
  intro c
  have hmean := lipschitzWith_mean (fun p : Fin H × Fin W => lipschitzWith_pixel c p.1 p.2)
  simp only [Fintype.card_prod, Fintype.card_fin, Fintype.sum_prod_type] at hmean
  apply hmean

/-- The concatenation of two arrays. -/
theorem lipschitzWith_append {m n : ℕ} {L M : ℝ≥0} {f : α → Fin m → ℝ} {g : α → Fin n → ℝ}
    (hf : LipschitzWith L f) (hg : LipschitzWith M g) :
  LipschitzWith (max L M) (fun x => Fin.append (f x) (g x))
  := by
  apply lipschitzWith_pi
  intro i
  refine Fin.addCases ?_ ?_ i
  · intro i
    simp only [Fin.append_left]
    have hcomp := (LipschitzWith.eval (α := fun _ => ℝ) i).comp hf
    rw [one_mul] at hcomp
    apply hcomp.weaken (le_max_left _ _)
  · intro i
    simp only [Fin.append_right]
    have hcomp := (LipschitzWith.eval (α := fun _ => ℝ) i).comp hg
    rw [one_mul] at hcomp
    apply hcomp.weaken (le_max_right _ _)

end Gains

/-! ### Decisions -/

section Decisions

variable {K : Type u} [LinearOrder K] {ι : Type} [Fintype ι] [LinearOrder ι] [Nonempty ι]

omit [LinearOrder ι] in
/-- Some entry is largest. -/
theorem exists_largest (x : ι → K) :
  (Finset.univ.filter (fun i => ∀ j, x j ≤ x i)).Nonempty
  := by
  obtain ⟨i, hi⟩ := Finite.exists_max x
  exact ⟨i, by simpa using hi⟩

/-- The first of the largest entries of an array. -/
def argmax (x : ι → K) : ι :=
  (Finset.univ.filter (fun i => ∀ j, x j ≤ x i)).min' (exists_largest x)

theorem le_argmax (x : ι → K) (i : ι) :
  x i ≤ x (argmax x)
  := by
  have hmem := Finset.min'_mem _ (exists_largest x)
  rw [Finset.mem_filter] at hmem
  apply hmem.2

/-- The entries before the one that is chosen are smaller. -/
theorem lt_argmax {x : ι → K} {i : ι} (h : i < argmax x) :
  x i < x (argmax x)
  := by
  by_contra hge
  apply h.not_ge
  apply Finset.min'_le
  rw [Finset.mem_filter]
  refine ⟨Finset.mem_univ i, ?_⟩
  intro j
  apply (le_argmax x j).trans (not_lt.mp hge)

/-- The choice is given by these properties. -/
theorem argmax_eq {x : ι → K} {k : ι} (hle : ∀ i, x i ≤ x k)
    (hlt : ∀ i, i < k → x i < x k) :
  argmax x = k
  := by
  rcases lt_trichotomy (argmax x) k with h | h | h
  · exact absurd (le_argmax x k) (hlt _ h).not_ge
  · apply h
  · exact absurd (hle (argmax x)) (lt_argmax h).not_ge

/-- An entry that is larger than all others is chosen. -/
theorem argmax_eq_of_lt {x : ι → K} {k : ι} (h : ∀ i, i ≠ k → x i < x k) :
  argmax x = k
  := by
  apply argmax_eq
  · intro i
    by_cases hi : i = k
    · rw [hi]
    · apply (h i hi).le
  · intro i hi
    apply h i hi.ne

/-- An entry that is larger than all others by more than twice a distance is chosen in all arrays
within the distance. -/
theorem argmax_eq_of_margin {x y : ι → ℝ} {k : ι} {δ : ℝ}
    (hxy : ∀ i, |x i - y i| ≤ δ) (h : ∀ i, i ≠ k → x i + 2 * δ < x k) :
  argmax x = k ∧ argmax y = k
  := by
  have hδ : 0 ≤ δ := (abs_nonneg _).trans (hxy k)
  constructor
  · apply argmax_eq_of_lt
    intro i hi
    have hlt := h i hi
    linarith
  · apply argmax_eq_of_lt
    intro i hi
    have hlt := h i hi
    have hi := abs_le.mp (hxy i)
    have hk := abs_le.mp (hxy k)
    linarith

end Decisions

end Layers
