import PipeAI.Algorithm.TrainingStats
import PipeAI.Numeric.Shares
import Mathlib.Analysis.SpecialFunctions.Trigonometric.Basic
import Mathlib.Logic.Equiv.Fin.Basic

/-!
# The spatial map

`build_spatial_basis` gives each pixel of a square image a weight for each sensor: the influence of
the sensor, which falls off with the distance of the pixel from the place of the sensor on a
semicircle, divided by the sum of the influences and a small number; and zero outside of an annulus.
`make_spatial_map` clamps the deformations, and weights their means and their peaks by this basis.

The weights of a pixel sum up to less than 1, so that the map stays below the bound of the clamp,
and is zero outside of the annulus (`abs_makeSpatialMap_lt`).

The arithmetic is exact.  The transcendental functions and the square root are parameters.
-/

universe u

open scoped BigOperators

namespace NetTraining

/-! ### The basis -/

/-- The functions of real numbers that `numpy` computes. -/
structure Functions (K : Type u) where
  exp : K → K
  cos : K → K
  sin : K → K
  sqrt : K → K
  pi : K

/-- The functions of the real numbers themselves. -/
noncomputable def Functions.real : Functions ℝ where
  exp := Real.exp
  cos := Real.cos
  sin := Real.sin
  sqrt := Real.sqrt
  pi := Real.pi

variable {K : Type u} {N T S : ℕ} [Field K]

/-- `np.deg2rad`. -/
def deg2rad (F : Functions K) (a : K) : K :=
  a * (F.pi / (180 : ℕ))

/-- `ys`, from the top to the bottom. -/
def ys (image_size : ℕ) : Fin image_size → K :=
  linspace 1 (-1) image_size

/-- `xs`, from the left to the right. -/
def xs (image_size : ℕ) : Fin image_size → K :=
  linspace (-1) 1 image_size

/-- `w`, the influence of the sensor at the angle `a`. -/
def influence (F : Functions K) (image_size : ℕ) (radius sigma a : K) (y x : Fin image_size) : K :=
  let theta := deg2rad F a
  let cx := radius * F.cos theta
  let cy := radius * F.sin theta
  let dist2 := (xs image_size x - cx) ^ 2 + (ys image_size y - cy) ^ 2
  F.exp (-dist2 / ((2 : ℕ) * sigma * sigma))

/-- `rr`, the distance of a pixel from the center. -/
def rr (F : Functions K) (image_size : ℕ) (y x : Fin image_size) : K :=
  F.sqrt (xs image_size x * xs image_size x + ys image_size y * ys image_size y)

variable [LinearOrder K]

/-- The pixel is in the upper annulus. -/
def InAnnulus (F : Functions K) (image_size : ℕ) (y x : Fin image_size) : Prop :=
  -((0.05 : ℚ) : K) ≤ ys image_size y ∧ ((0.35 : ℚ) : K) ≤ rr F image_size y x
    ∧ rr F image_size y x ≤ ((0.98 : ℚ) : K)

instance (F : Functions K) (image_size : ℕ) (y x : Fin image_size) :
    Decidable (InAnnulus F image_size y x) :=
  inferInstanceAs (Decidable (_ ∧ _ ∧ _))

/-- `build_spatial_basis`. -/
def buildSpatialBasis (F : Functions K) (image_size : ℕ) (angles_deg : Fin S → K)
    (radius sigma : K) : Fin S → Fin image_size → Fin image_size → K :=
  fun s y x =>
    let basis := fun s => influence F image_size radius sigma (angles_deg s) y x
    let mask := if InAnnulus F image_size y x then 1 else 0
    let denom := ∑ s, basis s + ((1e-6 : ℚ) : K)
    basis s / denom * mask

/-! ### The map -/

/-- `spatial_basis_flat`, the basis with its pixels in one row. -/
def spatialBasisFlat {H W : ℕ} (basis : Fin S → Fin H → Fin W → K) : Fin S → Fin (H * W) → K :=
  fun s p => basis s p.divNat p.modNat

/-- The deformations, clamped. -/
def deformation (stats : Stats K) (radar : Tensor K N (T + 1) 8) : Tensor K N (T + 1) 8 :=
  fun n t c => min (max (normalize radar stats.baseline stats.deform_scale n t c) (-(3 : ℕ))) (3 : ℕ)

/-- The largest value of a row that is not empty. -/
def amax (x : Fin (T + 1) → K) : K :=
  Finset.univ.sup' Finset.univ_nonempty x

/-- `sensor_feat`: of each sensor the mean, the positive peak and the negative peak. -/
def sensorFeat (d : Tensor K N (T + 1) 8) : Fin N → Fin 3 → Fin 8 → K :=
  fun n => ![fun c => (∑ t, d n t c) / ((T + 1 : ℕ) : K), fun c => amax (fun t => d n t c),
    fun c => amax (fun t => -d n t c)]

/-- `make_spatial_map`. -/
def makeSpatialMap (stats : Stats K) (image_size : ℕ)
    (spatial_basis_flat : Fin 8 → Fin (image_size * image_size) → K)
    (radar : Tensor K N (T + 1) 8) : Fin N → Fin 3 → Fin image_size → Fin image_size → K :=
  let d := deformation stats radar
  let spatial := fun n f p => ∑ c, sensorFeat d n f c * spatial_basis_flat c p
  fun n f y x => spatial n f (finProdFinEquiv (y, x))

/-! ### Its bounds -/

/-- A pixel of the map is the sum of the features of the sensors, weighted by their shares in the
pixel. -/
theorem makeSpatialMap_apply (stats : Stats K) {image_size : ℕ}
    (basis : Fin 8 → Fin image_size → Fin image_size → K) (radar : Tensor K N (T + 1) 8) (n : Fin N)
    (f : Fin 3) (y x : Fin image_size) :
  makeSpatialMap stats image_size (spatialBasisFlat basis) radar n f y x
    = ∑ c, sensorFeat (deformation stats radar) n f c * basis c y x
  := by
  have hpixel : (finProdFinEquiv (y, x)).divNat = y ∧ (finProdFinEquiv (y, x)).modNat = x := by
    rw [← Prod.mk.injEq]
    apply finProdFinEquiv.symm_apply_apply
  simp only [makeSpatialMap, spatialBasisFlat, hpixel.1, hpixel.2]

/-- The weights of a pixel outside of the annulus are zero. -/
theorem buildSpatialBasis_of_not_inAnnulus (F : Functions K) {image_size : ℕ}
    (angles_deg : Fin S → K) (radius sigma : K) {y x : Fin image_size}
    (h : ¬ InAnnulus F image_size y x) (s : Fin S) :
  buildSpatialBasis F image_size angles_deg radius sigma s y x = 0
  := by
  rw [buildSpatialBasis]
  simp only [if_neg h, mul_zero]

variable [IsStrictOrderedRing K]

section Weights

variable {F : Functions K} (hexp : ∀ a, 0 < F.exp a) {image_size : ℕ} (angles_deg : Fin S → K)
  (radius sigma : K) (y x : Fin image_size)

include hexp

theorem buildSpatialBasis_nonneg (s : Fin S) :
  0 ≤ buildSpatialBasis F image_size angles_deg radius sigma s y x
  := by
  have hsum : 0 ≤ ∑ s, influence F image_size radius sigma (angles_deg s) y x :=
    Finset.sum_nonneg (fun s _ => (hexp _).le)
  rw [buildSpatialBasis]
  apply mul_nonneg
  · apply div_nonneg (hexp _).le
    apply add_nonneg hsum
    positivity
  · split
    · apply zero_le_one
    · apply le_rfl

/-- The weights of a pixel sum up to less than 1. -/
theorem sum_buildSpatialBasis_lt_one :
  ∑ s, buildSpatialBasis F image_size angles_deg radius sigma s y x < 1
  := by
  by_cases h : InAnnulus F image_size y x
  · simp only [buildSpatialBasis, if_pos h, mul_one]
    apply sum_div_add_lt_one
    · intro s
      apply (hexp _).le
    · positivity
  · simp only [buildSpatialBasis_of_not_inAnnulus F angles_deg radius sigma h, Finset.sum_const_zero]
    apply zero_lt_one

end Weights

/-- The clamp bounds the deformations. -/
theorem abs_deformation_le (stats : Stats K) (radar : Tensor K N (T + 1) 8) (n : Fin N)
    (t : Fin (T + 1)) (c : Fin 8) :
  |deformation stats radar n t c| ≤ (3 : ℕ)
  := by
  rw [abs_le]
  constructor
  · apply le_min (le_max_right _ _)
    apply neg_le_self
    positivity
  · apply min_le_right

omit [IsStrictOrderedRing K] in
/-- The largest of bounded values is bounded. -/
theorem abs_amax_le {x : Fin (T + 1) → K} {M : K} (h : ∀ t, |x t| ≤ M) :
  |amax x| ≤ M
  := by
  obtain ⟨t, -, ht⟩ := Finset.exists_mem_eq_sup' Finset.univ_nonempty x
  rw [amax, ht]
  apply h

/-- The features are bounded as the deformations are. -/
theorem abs_sensorFeat_le {d : Tensor K N (T + 1) 8} {M : K} (h : ∀ n t c, |d n t c| ≤ M)
    (n : Fin N) (f : Fin 3) (c : Fin 8) :
  |sensorFeat d n f c| ≤ M
  := by
  fin_cases f
  · have hmean := abs_sum_div_card_le (fun t => h n t c)
    rw [Fintype.card_fin] at hmean
    apply hmean
  · apply abs_amax_le (fun t => h n t c)
  · apply abs_amax_le
    intro t
    rw [abs_neg]
    apply h

/-- The spatial map is less than 3 everywhere, and zero outside of the annulus; the weights of a
pixel are not negative and sum up to less than 1. -/
theorem abs_makeSpatialMap_lt (stats : Stats ℝ) (radar : Tensor ℝ N (T + 1) 8) (image_size : ℕ)
    (angles_deg : Fin 8 → ℝ) (radius sigma : ℝ) :
  let basis := buildSpatialBasis Functions.real image_size angles_deg radius sigma
  let map := makeSpatialMap stats image_size (spatialBasisFlat basis) radar
  (∀ n f y x, |map n f y x| < 3)
    ∧ (∀ n f y x, ¬ InAnnulus Functions.real image_size y x → map n f y x = 0)
    ∧ ∀ y x, (∀ c, 0 ≤ basis c y x) ∧ ∑ c, basis c y x < 1
  := by
  intro basis map
  have hexp : ∀ a, 0 < Functions.real.exp a := Real.exp_pos
  have hnonneg : ∀ y x c, 0 ≤ basis c y x := by
    apply buildSpatialBasis_nonneg hexp
  have hsum : ∀ y x, ∑ c, basis c y x < 1 := by
    apply sum_buildSpatialBasis_lt_one hexp
  have hmap : ∀ n f y x,
      map n f y x = ∑ c, sensorFeat (deformation stats radar) n f c * basis c y x := by
    apply makeSpatialMap_apply
  refine ⟨?_, ?_, ?_⟩
  · intro n f y x
    rw [hmap]
    have hfeat := abs_sensorFeat_le (abs_deformation_le stats radar) n f
    rw [Nat.cast_ofNat] at hfeat
    apply abs_sum_mul_lt three_pos hfeat (hnonneg y x) (hsum y x)
  · intro n f y x h
    rw [hmap]
    apply Finset.sum_eq_zero
    intro c _
    have hzero : basis c y x = 0 := by apply buildSpatialBasis_of_not_inAnnulus _ _ _ _ h
    rw [hzero, mul_zero]
  · intro y x
    exact ⟨hnonneg y x, hsum y x⟩

end NetTraining
