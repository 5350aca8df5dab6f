import PipeAI.Algorithm.SpatialMap
import PipeAI.Numeric.Layers

/-!
# The network

`End2EndPipeNet` reads a window of raw values.  One branch computes features of its spatial map by
convolutions in two dimensions, the other one features of its normalized sequences by convolutions
in one dimension, and the logits of the classes are computed from both.

The network is the one in evaluation: batch normalizations use their running statistics, and the
dropout is left out, as it does nothing.

The clamps before the branches bound the logits, whatever the raw values are
(`End2EndPipeNet.abs_forward_sub_le`).  The gains of the layers give a number by which the network
increases disturbances of the raw values at most, so that a class with a large enough margin stays
(`End2EndPipeNet.class_stable`).
-/

universe u

open scoped BigOperators NNReal

open Layers

namespace NetTraining

variable {K : Type u} [Field K] [LinearOrder K]

/-! ### The blocks -/

/-- A batch normalization of an image, and rectification. -/
def normalizeImage {C H W : ℕ} (F : Functions K) (bn : BatchNorm K C) (x : Image K C H W) :
    Image K C H W :=
  fun c y z => rectify (bn.apply F.sqrt c (x c y z))

/-- A batch normalization of a signal, and rectification. -/
def normalizeSignal {C L : ℕ} (F : Functions K) (bn : BatchNorm K C) (x : Signal K C L) :
    Signal K C L :=
  fun c l => rectify (bn.apply F.sqrt c (x c l))

/-- The parameters of `DWConv2dBlock`. -/
structure DWConv2dBlock (K : Type u) (c_in c_out : ℕ) where
  dw : Fin c_in → Fin (c_in / c_in) → Fin 3 → Fin 3 → K
  bn1 : BatchNorm K c_in
  pw : Fin c_out → Fin (c_in / 1) → Fin 1 → Fin 1 → K
  bn2 : BatchNorm K c_out

/-- `DWConv2dBlock.forward`. -/
def DWConv2dBlock.forward {c_in c_out H W : ℕ} (F : Functions K)
    (block : DWConv2dBlock K c_in c_out) (stride : ℕ) (x : Image K c_in H W) :
    Image K c_out (convLength (convLength H 3 stride 1) 1 1 0)
      (convLength (convLength W 3 stride 1) 1 1 0) :=
  let x := normalizeImage F block.bn1 (conv2d c_in stride 1 block.dw x)
  normalizeImage F block.bn2 (conv2d 1 1 0 block.pw x)

/-- The parameters of `DWConv1dBlock`. -/
structure DWConv1dBlock (K : Type u) (c_in c_out kernel : ℕ) where
  dw : Fin c_in → Fin (c_in / c_in) → Fin kernel → K
  bn1 : BatchNorm K c_in
  pw : Fin c_out → Fin (c_in / 1) → Fin 1 → K
  bn2 : BatchNorm K c_out

/-- `DWConv1dBlock.forward`. -/
def DWConv1dBlock.forward {c_in c_out kernel L : ℕ} (F : Functions K)
    (block : DWConv1dBlock K c_in c_out kernel) (stride : ℕ) (x : Signal K c_in L) :
    Signal K c_out (convLength (convLength L kernel stride (kernel / 2)) 1 1 0) :=
  let pad := kernel / 2
  let x := normalizeSignal F block.bn1 (conv1d c_in stride pad block.dw x)
  normalizeSignal F block.bn2 (conv1d 1 1 0 block.pw x)

/-- The block whose weights are all `w`. -/
def DWConv2dBlock.ofWeight {c_in c_out : ℕ} (w : K) : DWConv2dBlock K c_in c_out :=
  ⟨fun _ _ _ _ => w, .initial, fun _ _ _ _ => w, .initial⟩

/-- The block whose weights are all `w`. -/
def DWConv1dBlock.ofWeight {c_in c_out kernel : ℕ} (w : K) : DWConv1dBlock K c_in c_out kernel :=
  ⟨fun _ _ _ => w, .initial, fun _ _ _ => w, .initial⟩

/-- The parameters of `SpatialBranch`. -/
structure SpatialBranch (K : Type u) where
  conv : Fin 16 → Fin (3 / 1) → Fin 3 → Fin 3 → K
  bn : BatchNorm K 16
  block1 : DWConv2dBlock K 16 24
  block2 : DWConv2dBlock K 24 32
  block3 : DWConv2dBlock K 32 48
  fc : LinearLayer K 48 96

/-- `SpatialBranch.forward`. -/
def SpatialBranch.forward {H W : ℕ} (F : Functions K) (branch : SpatialBranch K)
    (x : Image K 3 H W) : Fin 96 → K :=
  let x := normalizeImage F branch.bn (conv2d 1 2 1 branch.conv x)
  let x := branch.block1.forward F 2 x
  let x := branch.block2.forward F 2 x
  let x := branch.block3.forward F 2 x
  fun o => rectify (branch.fc.apply (mean2d x) o)

/-- The parameters of `TemporalBranch`. -/
structure TemporalBranch (K : Type u) where
  stem : Fin 32 → Fin (25 / 1) → Fin 5 → K
  bn : BatchNorm K 32
  block1 : DWConv1dBlock K 32 48 5
  block2 : DWConv1dBlock K 48 64 3
  block3 : DWConv1dBlock K 64 80 3
  fc : LinearLayer K 80 96

/-- `TemporalBranch.forward`. -/
def TemporalBranch.forward {L : ℕ} (F : Functions K) (branch : TemporalBranch K)
    (x : Signal K 25 L) : Fin 96 → K :=
  let x := normalizeSignal F branch.bn (conv1d 1 2 2 branch.stem x)
  let x := branch.block1.forward F 2 x
  let x := branch.block2.forward F 1 x
  let x := branch.block3.forward F 2 x
  fun o => rectify (branch.fc.apply (mean1d x) o)

/-! ### The network -/

/-- The fields of `Config` that the network reads, but for `num_classes`. -/
structure Config (K : Type u) where
  image_size : ℕ
  sensor_angles_deg : Fin 8 → K
  spatial_sigma : K
  spatial_radius : K

/-- The defaults of these fields. -/
def Config.default : Config K where
  image_size := 64
  sensor_angles_deg := fun i => ((![15, 30, 45, 60, 90, 120, 145, 165] : Fin 8 → ℕ) i : K)
  spatial_sigma := ((0.25 : ℚ) : K)
  spatial_radius := ((0.72 : ℚ) : K)

/-- The buffers and the parameters of `End2EndPipeNet`. -/
structure End2EndPipeNet (K : Type u) (cfg : Config K) (num_classes : ℕ) where
  stats : Stats K
  spatial_branch : SpatialBranch K
  temporal_branch : TemporalBranch K
  fusion1 : LinearLayer K 192 96
  fusion2 : LinearLayer K 96 num_classes

namespace End2EndPipeNet

variable {cfg : Config K} {num_classes N T : ℕ}

/-- `spatial_basis_flat`. -/
def basis (F : Functions K) (cfg : Config K) : Fin 8 → Fin (cfg.image_size * cfg.image_size) → K :=
  spatialBasisFlat (buildSpatialBasis F cfg.image_size cfg.sensor_angles_deg cfg.spatial_radius
    cfg.spatial_sigma)

/-- `fusion`. -/
def fusion (net : End2EndPipeNet K cfg num_classes) (fused : Fin (96 + 96) → K) :
    Fin num_classes → K :=
  net.fusion2.apply (fun o => rectify (net.fusion1.apply fused o))

/-- The branches and their fusion. -/
def head (F : Functions K) (net : End2EndPipeNet K cfg num_classes) {H W L : ℕ}
    (spatial_map : Image K 3 H W) (seq : Signal K 25 L) : Fin num_classes → K :=
  let f_sp := net.spatial_branch.forward F spatial_map
  let f_tm := net.temporal_branch.forward F seq
  net.fusion (Fin.append f_sp f_tm)

/-- `End2EndPipeNet.forward`. -/
def forward (F : Functions K) (net : End2EndPipeNet K cfg num_classes) (x : Tensor K N (T + 1) 9) :
    Fin N → Fin num_classes → K :=
  let radar := radarOf x
  let imu := imuOf x
  let spatial_map := makeSpatialMap net.stats cfg.image_size (basis F cfg) radar
  let seq := makeTemporalFeatures net.stats radar imu
  fun n => net.head F (spatial_map n) (seq n)

/-- The logits of one window. -/
def windowLogits (F : Functions K) (net : End2EndPipeNet K cfg num_classes)
    (x : Window K (T + 1)) : Fin num_classes → K :=
  net.forward F (fun _ : Fin 1 => x) 0

/-- A network whose weights are all `w`, with no biases but those of its last layer. -/
def ofWeight (cfg : Config K) (w : K) (bias : Fin num_classes → K) :
    End2EndPipeNet K cfg num_classes where
  stats := ⟨0, 1, 0, 1, 0, 1, 0, 1, 0, 1⟩
  spatial_branch := ⟨fun _ _ _ _ => w, .initial, .ofWeight w, .ofWeight w, .ofWeight w,
    ⟨fun _ _ => w, 0⟩⟩
  temporal_branch := ⟨fun _ _ _ => w, .initial, .ofWeight w, .ofWeight w, .ofWeight w,
    ⟨fun _ _ => w, 0⟩⟩
  fusion1 := ⟨fun _ _ => w, 0⟩
  fusion2 := ⟨fun _ _ => w, bias⟩

/-- The logits of such a network differ by the biases. -/
theorem exists_forward_ofWeight (cfg : Config K) (F : Functions K) (w : K) (bias : Fin num_classes → K)
    (x : Tensor K N (T + 1) 9) (n : Fin N) :
  ∃ s, ∀ k, (ofWeight cfg w bias).forward F x n k = w * s + bias k
  := by
  refine ⟨_, fun k => congrArg (fun v => v + bias k) (Finset.mul_sum _ _ w).symm⟩

/-- Their class is the one with the largest bias. -/
theorem argmax_ofWeight [IsStrictOrderedRing K] {n : ℕ} (F : Functions K) (w : K)
    {bias : Fin (n + 1) → K} {k : Fin (n + 1)} (h : ∀ l, l ≠ k → bias l < bias k)
    (x : Tensor K N (T + 1) 9) (i : Fin N) :
  argmax ((ofWeight cfg w bias).forward F x i) = k
  := by
  obtain ⟨s, hs⟩ := exists_forward_ofWeight cfg F w bias x i
  apply argmax_eq_of_lt
  intro l hl
  rw [hs, hs]
  apply add_lt_add_right (h l hl)

end End2EndPipeNet

/-! ### The gains of the branches -/

section Gains

variable (F : Functions ℝ)

/-- A batch normalization of a value, and rectification. -/
theorem lipschitzWith_normalize {C : ℕ} (bn : BatchNorm ℝ C) (c : Fin C) :
  LipschitzWith (bn.gain F.sqrt) (fun v => rectify (bn.apply F.sqrt c v))
  := by
  have hcomp := lipschitzWith_rectify.comp (lipschitzWith_batchNorm F.sqrt bn c)
  rw [one_mul] at hcomp
  apply hcomp

theorem lipschitzWith_normalizeImage {C H W : ℕ} (bn : BatchNorm ℝ C) :
  LipschitzWith (bn.gain F.sqrt) (normalizeImage (H := H) (W := W) F bn)
  := by
  apply lipschitzWith_pi
  intro c
  apply lipschitzWith_pi
  intro y
  apply lipschitzWith_pi
  intro z
  have hcomp := (lipschitzWith_normalize F bn c).comp (lipschitzWith_pixel c y z)
  rw [mul_one] at hcomp
  apply hcomp

theorem lipschitzWith_normalizeSignal {C L : ℕ} (bn : BatchNorm ℝ C) :
  LipschitzWith (bn.gain F.sqrt) (normalizeSignal (L := L) F bn)
  := by
  apply lipschitzWith_pi
  intro c
  apply lipschitzWith_pi
  intro l
  have hcomp := (lipschitzWith_normalize F bn c).comp (lipschitzWith_eval_eval c l)
  rw [mul_one] at hcomp
  apply hcomp

/-- The gain of a block. -/
noncomputable def DWConv2dBlock.gain {c_in c_out : ℕ} (block : DWConv2dBlock ℝ c_in c_out) : ℝ≥0 :=
  block.bn2.gain F.sqrt * conv2dGain block.pw * (block.bn1.gain F.sqrt * conv2dGain block.dw)

theorem lipschitzWith_block2d {c_in c_out H W : ℕ} (block : DWConv2dBlock ℝ c_in c_out)
    (stride : ℕ) :
  LipschitzWith (block.gain F) (block.forward (H := H) (W := W) F stride)
  := by
  have hdw := (lipschitzWith_normalizeImage F block.bn1).comp
    (lipschitzWith_conv2d (H := H) (W := W) c_in stride 1 block.dw)
  have hpw := (lipschitzWith_normalizeImage F block.bn2).comp
    (lipschitzWith_conv2d (H := convLength H 3 stride 1) (W := convLength W 3 stride 1)
      1 1 0 block.pw)
  apply hpw.comp hdw

/-- The gain of a block. -/
noncomputable def DWConv1dBlock.gain {c_in c_out kernel : ℕ}
    (block : DWConv1dBlock ℝ c_in c_out kernel) : ℝ≥0 :=
  block.bn2.gain F.sqrt * conv1dGain block.pw * (block.bn1.gain F.sqrt * conv1dGain block.dw)

theorem lipschitzWith_block1d {c_in c_out kernel L : ℕ} (block : DWConv1dBlock ℝ c_in c_out kernel)
    (stride : ℕ) :
  LipschitzWith (block.gain F) (block.forward (L := L) F stride)
  := by
  have hdw := (lipschitzWith_normalizeSignal F block.bn1).comp
    (lipschitzWith_conv1d (L := L) c_in stride (kernel / 2) block.dw)
  have hpw := (lipschitzWith_normalizeSignal F block.bn2).comp
    (lipschitzWith_conv1d (L := convLength L kernel stride (kernel / 2)) 1 1 0 block.pw)
  apply hpw.comp hdw

/-- A linear layer and rectification. -/
theorem lipschitzWith_rectify_linear {I O : ℕ} (layer : LinearLayer ℝ I O) :
  LipschitzWith layer.gain (fun x o => rectify (layer.apply x o))
  := by
  apply lipschitzWith_pi
  intro o
  have hcomp := lipschitzWith_rectify.comp
    ((LipschitzWith.eval (α := fun _ => ℝ) o).comp (lipschitzWith_linear layer))
  rw [one_mul, one_mul] at hcomp
  apply hcomp

/-- The gain of the spatial branch. -/
noncomputable def SpatialBranch.gain (branch : SpatialBranch ℝ) : ℝ≥0 :=
  branch.fc.gain * (branch.block3.gain F * (branch.block2.gain F * (branch.block1.gain F
    * (branch.bn.gain F.sqrt * conv2dGain branch.conv))))

theorem lipschitzWith_spatialBranch {H W : ℕ} (branch : SpatialBranch ℝ) :
  LipschitzWith (branch.gain F) (branch.forward (H := H) (W := W) F)
  := by
  have hconv := (lipschitzWith_normalizeImage F branch.bn).comp
    (lipschitzWith_conv2d (H := H) (W := W) 1 2 1 branch.conv)
  have hblocks := (lipschitzWith_block2d F branch.block3 2).comp
    ((lipschitzWith_block2d F branch.block2 2).comp
      ((lipschitzWith_block2d F branch.block1 2).comp hconv))
  have hmean := lipschitzWith_mean2d.comp hblocks
  rw [one_mul] at hmean
  apply (lipschitzWith_rectify_linear branch.fc).comp hmean

/-- The gain of the temporal branch. -/
noncomputable def TemporalBranch.gain (branch : TemporalBranch ℝ) : ℝ≥0 :=
  branch.fc.gain * (branch.block3.gain F * (branch.block2.gain F * (branch.block1.gain F
    * (branch.bn.gain F.sqrt * conv1dGain branch.stem))))

theorem lipschitzWith_temporalBranch {L : ℕ} (branch : TemporalBranch ℝ) :
  LipschitzWith (branch.gain F) (branch.forward (L := L) F)
  := by
  have hstem := (lipschitzWith_normalizeSignal F branch.bn).comp
    (lipschitzWith_conv1d (L := L) 1 2 2 branch.stem)
  have hblocks := (lipschitzWith_block1d F branch.block3 2).comp
    ((lipschitzWith_block1d F branch.block2 1).comp
      ((lipschitzWith_block1d F branch.block1 2).comp hstem))
  have hmean := lipschitzWith_mean1d.comp hblocks
  rw [one_mul] at hmean
  apply (lipschitzWith_rectify_linear branch.fc).comp hmean

end Gains

/-! ### The gains of the features -/

section Features

variable {α : Type} [PseudoMetricSpace α] {T : ℕ}

/-- The normalization of a value. -/
theorem lipschitzWith_affine {f : α → ℝ} {L : ℝ≥0} (h : LipschitzWith L f) (m s : ℝ) :
  LipschitzWith (‖s⁻¹‖₊ * L) (fun x => (f x - m) / s)
  := by
  have hsub := h.sub (LipschitzWith.const m)
  rw [add_zero] at hsub
  have hmul := lipschitzWith_mul hsub s⁻¹
  simp only [inv_mul_eq_div] at hmul
  apply hmul

/-- The largest value of a row. -/
theorem lipschitzWith_amax {f : α → Fin (T + 1) → ℝ} {L : ℝ≥0}
    (h : ∀ t, LipschitzWith L (fun x => f x t)) :
  LipschitzWith L (fun x => amax (f x))
  := by
  apply LipschitzWith.of_le_add_mul
  intro x y
  apply Finset.sup'_le
  intro t _
  have hle := (h t).le_add_mul x y
  have hmax : f y t ≤ amax (f y) := Finset.le_sup' (f y) (Finset.mem_univ t)
  linarith

/-- The gain of the spatial map. -/
noncomputable def spatialMapGain (stats : Stats ℝ) : ℝ≥0 :=
  Finset.univ.sup (fun c => ‖(stats.deform_scale c)⁻¹‖₊)

/-- The clamped deformations of one window. -/
theorem lipschitzWith_deformation (stats : Stats ℝ) (t : Fin (T + 1)) (c : Fin 8) :
  LipschitzWith (spatialMapGain stats)
    (fun x : Window ℝ (T + 1) => deformation stats (radarOf (fun _ : Fin 1 => x)) 0 t c)
  := by
  have hle : ‖(stats.deform_scale c)⁻¹‖₊ ≤ spatialMapGain stats :=
    Finset.le_sup (f := fun c => ‖(stats.deform_scale c)⁻¹‖₊) (Finset.mem_univ c)
  have haffine := lipschitzWith_affine (lipschitzWith_eval_eval t (Fin.castAdd 1 c))
    (stats.baseline c) (stats.deform_scale c)
  rw [mul_one] at haffine
  apply ((haffine.weaken hle).max_const _).min_const

/-- The features of one window. -/
theorem lipschitzWith_sensorFeat (stats : Stats ℝ) (f : Fin 3) (c : Fin 8) :
  LipschitzWith (spatialMapGain stats) (fun x : Window ℝ (T + 1) =>
    sensorFeat (deformation stats (radarOf (fun _ : Fin 1 => x))) 0 f c)
  := by
  fin_cases f
  · have hmean := lipschitzWith_mean (fun t : Fin (T + 1) => lipschitzWith_deformation stats t c)
    rw [Fintype.card_fin] at hmean
    apply hmean
  · apply lipschitzWith_amax
    intro t
    apply lipschitzWith_deformation
  · apply lipschitzWith_amax
    intro t
    apply (lipschitzWith_deformation stats t c).neg

/-- The spatial map of one window. -/
theorem lipschitzWith_makeSpatialMap (stats : Stats ℝ) (image_size : ℕ) (angles_deg : Fin 8 → ℝ)
    (radius sigma : ℝ) :
  LipschitzWith (spatialMapGain stats) (fun x : Window ℝ (T + 1) =>
    makeSpatialMap stats image_size (spatialBasisFlat (buildSpatialBasis Functions.real image_size
      angles_deg radius sigma)) (radarOf (fun _ : Fin 1 => x)) 0)
  := by
  have hexp : ∀ a, 0 < Functions.real.exp a := Real.exp_pos
  apply lipschitzWith_pi
  intro f
  apply lipschitzWith_pi
  intro y
  apply lipschitzWith_pi
  intro z
  simp only [makeSpatialMap_apply]
  have hsum : ∑ c, ‖buildSpatialBasis Functions.real image_size angles_deg radius sigma c y z‖₊ ≤ 1
    := by
    rw [← NNReal.coe_le_coe, NNReal.coe_sum, NNReal.coe_one]
    apply le_of_eq_of_le _ (sum_buildSpatialBasis_lt_one hexp angles_deg radius sigma y z).le
    apply Finset.sum_congr rfl
    intro c _
    rw [coe_nnnorm, Real.norm_eq_abs, abs_of_nonneg]
    apply buildSpatialBasis_nonneg hexp
  have hpixel := lipschitzWith_sum (fun c => lipschitzWith_mul (lipschitzWith_sensorFeat (T := T)
    stats f c) (buildSpatialBasis Functions.real image_size angles_deg radius sigma c y z))
  rw [← Finset.sum_mul] at hpixel
  simp only [mul_comm (sensorFeat _ _ _ _)]
  apply hpixel.weaken
  apply mul_le_of_le_one_left zero_le hsum

/-- The differences of the rows of arrays. -/
theorem lipschitzWith_differences {C : ℕ} {f : α → Tensor ℝ 1 (T + 1) C} {L : ℝ≥0}
    (h : ∀ t c, LipschitzWith L (fun x => f x 0 t c)) (t : Fin (T + 1)) (c : Fin C) :
  LipschitzWith (L + L) (fun x => prependRow (fun _ _ => 0)
    (fun n t c => dropFirst (f x) n t c - dropLast (f x) n t c) 0 t c)
  := by
  refine Fin.cases ?_ (fun t => ?_) t
  · apply (LipschitzWith.const 0).weaken zero_le
  · apply (h t.succ c).sub (h t.castSucc c)

/-- The gain of the normalized sequences. -/
noncomputable def sequenceGain (stats : Stats ℝ) : ℝ≥0 :=
  (Finset.univ.sup (fun c => ‖(stats.radar_std c)⁻¹‖₊))
    ⊔ (Finset.univ.sup (fun c => ‖(stats.diff1_std c)⁻¹‖₊ * (1 + 1)))
    ⊔ (Finset.univ.sup (fun c => ‖(stats.diff2_std c)⁻¹‖₊ * (1 + 1 + (1 + 1))))
    ⊔ (Finset.univ.sup (fun c => ‖(stats.imu_std c)⁻¹‖₊))

/-- The normalized sequences of one window. -/
theorem lipschitzWith_makeTemporalFeatures (stats : Stats ℝ) :
  LipschitzWith (sequenceGain stats) (fun x : Window ℝ (T + 1) =>
    makeTemporalFeatures stats (radarOf (fun _ : Fin 1 => x)) (imuOf (fun _ : Fin 1 => x)) 0)
  := by
  have hradar : ∀ (t : Fin (T + 1)) (c : Fin 8), LipschitzWith 1 (fun x : Window ℝ (T + 1) =>
      radarOf (fun _ : Fin 1 => x) 0 t c) := by
    intro t c
    apply lipschitzWith_eval_eval
  have himu : ∀ (t : Fin (T + 1)) (c : Fin 1), LipschitzWith 1 (fun x : Window ℝ (T + 1) =>
      imuOf (fun _ : Fin 1 => x) 0 t c) := by
    intro t c
    apply lipschitzWith_eval_eval
  have hdiff1 := lipschitzWith_differences hradar
  have hdiff2 := lipschitzWith_differences hdiff1
  apply lipschitzWith_pi
  intro c
  apply lipschitzWith_pi
  intro t
  apply LipschitzWith.min_const
  apply LipschitzWith.max_const
  induction c using feature_cases with
  | radar c =>
      simp only [normalizedFeatures, appendChannels, Fin.append_left, normalize]
      have haffine := lipschitzWith_affine (hradar t c) (stats.radar_mean c) (stats.radar_std c)
      rw [mul_one] at haffine
      apply haffine.weaken
      apply le_sup_of_le_left (le_sup_of_le_left (le_sup_of_le_left _))
      apply Finset.le_sup (f := fun c => ‖(stats.radar_std c)⁻¹‖₊) (Finset.mem_univ c)
  | diff1 c =>
      simp only [normalizedFeatures, appendChannels, Fin.append_left, Fin.append_right, normalize]
      have haffine := lipschitzWith_affine (hdiff1 t c) (stats.diff1_mean c) (stats.diff1_std c)
      apply haffine.weaken
      apply le_sup_of_le_left (le_sup_of_le_left (le_sup_of_le_right _))
      apply Finset.le_sup (f := fun c => ‖(stats.diff1_std c)⁻¹‖₊ * (1 + 1)) (Finset.mem_univ c)
  | diff2 c =>
      simp only [normalizedFeatures, appendChannels, Fin.append_left, Fin.append_right, normalize]
      have haffine := lipschitzWith_affine (hdiff2 t c) (stats.diff2_mean c) (stats.diff2_std c)
      apply haffine.weaken
      apply le_sup_of_le_left (le_sup_of_le_right _)
      apply Finset.le_sup (f := fun c => ‖(stats.diff2_std c)⁻¹‖₊ * (1 + 1 + (1 + 1)))
        (Finset.mem_univ c)
  | imu c =>
      simp only [normalizedFeatures, appendChannels, Fin.append_right, normalize]
      have haffine := lipschitzWith_affine (himu t c) (stats.imu_mean c) (stats.imu_std c)
      rw [mul_one] at haffine
      apply haffine.weaken
      apply le_sup_of_le_right
      apply Finset.le_sup (f := fun c => ‖(stats.imu_std c)⁻¹‖₊) (Finset.mem_univ c)

end Features

/-! ### The logits -/

namespace End2EndPipeNet

variable {cfg : Config ℝ} {num_classes : ℕ} (F : Functions ℝ)

/-- The gain of the fusion. -/
noncomputable def fusionGain (net : End2EndPipeNet ℝ cfg num_classes) : ℝ≥0 :=
  net.fusion2.gain * net.fusion1.gain

theorem lipschitzWith_fusion (net : End2EndPipeNet ℝ cfg num_classes) :
  LipschitzWith net.fusionGain net.fusion
  := (lipschitzWith_linear net.fusion2).comp (lipschitzWith_rectify_linear net.fusion1)

/-- What the logits change by with the features, when these change with something else. -/
theorem lipschitzWith_head {α : Type} [PseudoMetricSpace α] (net : End2EndPipeNet ℝ cfg num_classes)
    {H W L : ℕ} {f : α → Image ℝ 3 H W} {g : α → Signal ℝ 25 L} {A B : ℝ≥0}
    (hf : LipschitzWith A f) (hg : LipschitzWith B g) :
  LipschitzWith (net.fusionGain * (net.spatial_branch.gain F * A ⊔ net.temporal_branch.gain F * B))
    (fun x => net.head F (f x) (g x))
  := (lipschitzWith_fusion net).comp
    (lipschitzWith_append ((lipschitzWith_spatialBranch F net.spatial_branch).comp hf)
      ((lipschitzWith_temporalBranch F net.temporal_branch).comp hg))

/-- The gain of the network. -/
noncomputable def gain (net : End2EndPipeNet ℝ cfg num_classes) : ℝ≥0 :=
  net.fusionGain * (net.spatial_branch.gain F * spatialMapGain net.stats
    ⊔ net.temporal_branch.gain F * sequenceGain net.stats)

variable {N M T : ℕ}

/-- The logits of one window. -/
theorem lipschitzWith_forward (net : End2EndPipeNet ℝ cfg num_classes) :
  LipschitzWith (net.gain Functions.real) (fun x : Window ℝ (T + 1) =>
    net.forward Functions.real (fun _ : Fin 1 => x) 0)
  := lipschitzWith_head Functions.real net
    (lipschitzWith_makeSpatialMap net.stats cfg.image_size cfg.sensor_angles_deg
      cfg.spatial_radius cfg.spatial_sigma)
    (lipschitzWith_makeTemporalFeatures net.stats)

/-- Windows that are close have logits that are close, whatever the rest of their batches is. -/
theorem abs_forward_sub_le (net : End2EndPipeNet ℝ cfg num_classes) {x : Tensor ℝ N (T + 1) 9}
    {y : Tensor ℝ M (T + 1) 9} {n : Fin N} {m : Fin M} {ε : ℝ}
    (h : ∀ t c, |x n t c - y m t c| ≤ ε) (k : Fin num_classes) :
  |net.forward Functions.real x n k - net.forward Functions.real y m k|
    ≤ net.gain Functions.real * ε
  := by
  have hε : 0 ≤ ε := (abs_nonneg _).trans (h 0 0)
  have hdist : dist (x n) (y m) ≤ ε := by
    rw [dist_pi_le_iff hε]
    intro t
    rw [dist_pi_le_iff hε]
    apply h t
  have hle := (lipschitzWith_forward net).dist_le_mul_of_le hdist
  rw [dist_pi_le_iff (by positivity)] at hle
  apply hle k

/-- Windows that are at most `ε` apart have logits that are at most `gain * ε` apart, whatever the
rest of their batches is; a class that is ahead of the others by more than twice as much is the class
of both. -/
theorem class_stable {n : ℕ} (net : End2EndPipeNet ℝ cfg (n + 1)) {x : Tensor ℝ N (T + 1) 9}
    {y : Tensor ℝ M (T + 1) 9} {i : Fin N} {j : Fin M} {ε : ℝ}
    (h : ∀ t c, |x i t c - y j t c| ≤ ε) :
  (∀ k, |net.forward Functions.real x i k - net.forward Functions.real y j k|
      ≤ net.gain Functions.real * ε)
    ∧ ∀ k, (∀ l, l ≠ k → net.forward Functions.real x i l + 2 * (net.gain Functions.real * ε)
        < net.forward Functions.real x i k) →
      argmax (net.forward Functions.real x i) = k ∧ argmax (net.forward Functions.real y j) = k
  := by
  have hle := abs_forward_sub_le net h
  refine ⟨hle, ?_⟩
  intro k hk
  apply argmax_eq_of_margin hle hk

/-- The spatial map is bounded, as the weights of a pixel sum up to less than 1. -/
theorem abs_makeSpatialMap_le (stats : Stats ℝ) (radar : Tensor ℝ N (T + 1) 8) (cfg : Config ℝ)
    (n : Fin N) (f : Fin 3) (y z : Fin cfg.image_size) :
  |makeSpatialMap stats cfg.image_size (basis Functions.real cfg) radar n f y z| ≤ 3
  := by
  have hexp : ∀ a, 0 < Functions.real.exp a := Real.exp_pos
  have hfeat := abs_sensorFeat_le (abs_deformation_le stats radar) n f
  rw [Nat.cast_ofNat] at hfeat
  rw [basis, makeSpatialMap_apply]
  apply (abs_sum_mul_lt three_pos hfeat _ _).le
  · apply buildSpatialBasis_nonneg hexp
  · apply sum_buildSpatialBasis_lt_one hexp

/-- The multiples of an array with bounded entries. -/
theorem lipschitzWith_multiple {ι : Type} [Fintype ι] {b : ℝ≥0} {v : ι → ℝ} (h : ∀ i, |v i| ≤ b) :
  LipschitzWith b (fun (s : ℝ) i => v i * s)
  := by
  apply lipschitzWith_pi
  intro i
  have hmul := lipschitzWith_mul LipschitzWith.id (v i)
  rw [mul_one] at hmul
  apply hmul.weaken
  rw [← NNReal.coe_le_coe, coe_nnnorm]
  apply h i

/-- A network whose weights are all the same, but not zero, has a positive gain. -/
theorem gain_ofWeight_pos {w : ℝ} (hw : w ≠ 0) (k : Fin num_classes) (bias : Fin num_classes → ℝ) :
  0 < (ofWeight cfg w bias).gain Functions.real
  := by
  have hfc : ∀ {I O : ℕ} {b : Fin O → ℝ}, 0 < I → 0 < O →
      0 < (⟨fun _ _ => w, b⟩ : LinearLayer ℝ I O).gain :=
    fun hI hO => LinearLayer.gain_pos (o := ⟨0, hO⟩) (i := ⟨0, hI⟩) hw
  have hsqrt : √(1 + ((1e-5 : ℚ) : ℝ)) ≠ 0 := Real.sqrt_ne_zero'.mpr (by norm_num)
  have hbn : ∀ {C : ℕ}, 0 < C → 0 < (BatchNorm.initial : BatchNorm ℝ C).gain Functions.real.sqrt :=
    fun hC => BatchNorm.gain_pos (c := ⟨0, hC⟩) one_ne_zero hsqrt
  have hconv : ∀ {D G k : ℕ}, 0 < D → 0 < G → 0 < k →
      0 < conv2dGain (fun (_ : Fin D) (_ : Fin G) (_ _ : Fin k) => w) :=
    fun hD hG hk => conv2dGain_pos (d := ⟨0, hD⟩) (g := ⟨0, hG⟩) (i := ⟨0, hk⟩) (j := ⟨0, hk⟩) hw
  have hblock : ∀ {c_in c_out : ℕ}, 0 < c_in → 0 < c_out →
      0 < (DWConv2dBlock.ofWeight w : DWConv2dBlock ℝ c_in c_out).gain Functions.real := by
    intro c_in c_out hin hout
    apply mul_pos (mul_pos (hbn hout) (hconv hout _ Nat.one_pos))
      (mul_pos (hbn hin) (hconv hin _ three_pos))
    · rwa [Nat.div_one]
    · rw [Nat.div_self hin]
      exact Nat.one_pos
  have hmap : 0 < spatialMapGain (ofWeight cfg w bias).stats := by
    rw [spatialMapGain, Finset.lt_sup_iff]
    exact ⟨0, Finset.mem_univ _, nnnorm_pos.mpr (inv_ne_zero one_ne_zero)⟩
  apply mul_pos (mul_pos (hfc (by decide) (Fin.pos k)) (hfc (by decide) (by decide)))
  apply lt_sup_of_lt_left
  apply mul_pos _ hmap
  apply mul_pos (hfc (by decide) (by decide))
  apply mul_pos (hblock (by decide) (by decide))
  apply mul_pos (hblock (by decide) (by decide))
  apply mul_pos (hblock (by decide) (by decide))
  apply mul_pos (hbn (by decide)) (hconv (by decide) (by decide) (by decide))

/-- The network whose weights are all 1, and whose bias prefers the class `k` by more than `r` times
its gain. -/
noncomputable def preferring (cfg : Config ℝ) (k : Fin num_classes) (r : ℝ) :
    End2EndPipeNet ℝ cfg num_classes :=
  let gain := (ofWeight cfg 1 0 : End2EndPipeNet ℝ cfg num_classes).gain Functions.real
  ofWeight cfg 1 (fun l => if l = k then r * gain + 1 else 0)

theorem gain_preferring_pos (k : Fin num_classes) (r : ℝ) :
  0 < (preferring cfg k r).gain Functions.real
  := gain_ofWeight_pos one_ne_zero k _

/-- The class `k` is ahead of the others on every window. -/
theorem margin_preferring {k l : Fin num_classes} (h : l ≠ k) (r : ℝ) (x : Tensor ℝ N (T + 1) 9)
    (n : Fin N) :
  (preferring cfg k r).forward Functions.real x n l + r * (preferring cfg k r).gain Functions.real
    < (preferring cfg k r).forward Functions.real x n k
  := by
  let gain := (ofWeight cfg 1 0 : End2EndPipeNet ℝ cfg num_classes).gain Functions.real
  have hgain : (preferring cfg k r).gain Functions.real = gain := rfl
  obtain ⟨s, hs⟩ := exists_forward_ofWeight cfg Functions.real 1
    (fun l => if l = k then r * gain + 1 else 0) x n
  have hk : (preferring cfg k r).forward Functions.real x n k = 1 * s + (r * gain + 1) :=
    (hs k).trans (by rw [if_pos rfl])
  have hl : (preferring cfg k r).forward Functions.real x n l = 1 * s + 0 :=
    (hs l).trans (by rw [if_neg h])
  rw [hk, hl, hgain]
  linarith

/-- The theorem at two windows that change with the time, and a network that prefers the first
class. -/
theorem class_stable_preferring :
  ∃ net : End2EndPipeNet ℝ Config.default 2, 0 < net.gain Functions.real
    ∧ (∀ k, |net.forward Functions.real (fun _ t _ => 200 + (t : ℕ) : Tensor ℝ 1 128 9) 0 k
          - net.forward Functions.real (fun _ t _ => 201 + (t : ℕ) : Tensor ℝ 1 128 9) 0 k|
        ≤ net.gain Functions.real * 1)
    ∧ argmax (net.forward Functions.real (fun _ t _ => 200 + (t : ℕ) : Tensor ℝ 1 128 9) 0) = 0
    ∧ argmax (net.forward Functions.real (fun _ t _ => 201 + (t : ℕ) : Tensor ℝ 1 128 9) 0) = 0
  := by
  refine ⟨preferring Config.default 0 2, gain_preferring_pos 0 2, ?_⟩
  have hstable := class_stable (n := 1) (preferring Config.default 0 2)
    (x := (fun _ t _ => 200 + (t : ℕ) : Tensor ℝ 1 128 9))
    (y := (fun _ t _ => 201 + (t : ℕ) : Tensor ℝ 1 128 9)) (i := 0) (j := 0) (ε := 1)
    (fun t c => by norm_num [abs_le])
  refine ⟨hstable.1, hstable.2 0 ?_⟩
  intro l hl
  rw [mul_one]
  apply margin_preferring hl

/-- Whatever the raw values are, the logits are within a distance, given by the parameters, of those
of features that are zero. -/
theorem abs_forward_le (net : End2EndPipeNet ℝ cfg num_classes) (x : Tensor ℝ N (T + 1) 9)
    (n : Fin N) (k : Fin num_classes) :
  |net.forward Functions.real x n k
      - net.head Functions.real (fun _ _ _ => 0 : Image ℝ 3 cfg.image_size cfg.image_size)
        (fun _ _ => 0 : Signal ℝ 25 (T + 1)) k|
    ≤ net.fusionGain * max (net.spatial_branch.gain Functions.real * 3)
      (net.temporal_branch.gain Functions.real * 6)
  := by
  let map := makeSpatialMap net.stats cfg.image_size (basis Functions.real cfg) (radarOf x) n
  let seq := makeTemporalFeatures net.stats (radarOf x) (imuOf x) n
  have hmap : LipschitzWith 3 (fun (s : ℝ) f y z => map f y z * s) := by
    apply lipschitzWith_pi
    intro f
    apply lipschitzWith_pi
    intro y
    apply lipschitzWith_multiple
    intro z
    apply abs_makeSpatialMap_le
  have hseq : LipschitzWith 6 (fun (s : ℝ) c t => seq c t * s) := by
    apply lipschitzWith_pi
    intro c
    apply lipschitzWith_multiple
    intro t
    rw [abs_le]
    apply makeTemporalFeatures_mem
  have hle := (lipschitzWith_head Functions.real net hmap hseq).dist_le_mul 1 0
  rw [dist_pi_le_iff (by positivity)] at hle
  have hk := hle k
  simp only [mul_one, mul_zero, dist_zero_right, norm_one] at hk
  apply hk

end End2EndPipeNet

end NetTraining
