import PipeAI.Numeric.Interpolation
import PipeAI.Numeric.LeastSquares
import PipeAI.Numeric.Loop
import PipeAI.Types
import Mathlib.Algebra.BigOperators.Fin
import Mathlib.Data.Fin.VecNotation
import Mathlib.RingTheory.Polynomial.SmallDegreeVieta
import Mathlib.Tactic.FieldSimp
import Mathlib.Tactic.FinCases
import Mathlib.Tactic.NormNum

/-!
# Savitzky-Golay smoothing

`savgol72Interp` replaces every value of a channel with at least seven values by a weighted
sum of seven of them, with the weights `kWeights`.

The weights are the values of a kernel that reproduces the quadratic polynomials on seven
equidistant nodes (`kWeights_eq`, `isReproducing_quadraticKernel`).  The smoothed value is
therefore the value of a quadratic least-squares fit, rounded (`savgol72Interp_eq`).
-/

universe u

variable {K : Type u} [Field K] [LinearOrder K]

/-! ### The code -/

/-- `kWeights`. -/
def kWeights (K : Type u) [Field K] : Fin 7 → Fin 7 → K :=
  ![![32/42, 15/42,  3/42, -4/42, -6/42, -3/42,  5/42],
    ![15/42, 12/42,  9/42,  6/42,  3/42,     0, -3/42],
    ![ 3/42,  9/42, 12/42, 12/42,  9/42,  3/42, -6/42],
    ![-2/21,  3/21,  6/21,  7/21,  6/21,  3/21, -2/21],
    ![-6/42,  3/42,  9/42, 12/42, 12/42,  9/42,  3/42],
    ![-3/42,     0,  3/42,  6/42,  9/42, 12/42, 15/42],
    ![ 5/42, -3/42, -6/42, -4/42,  3/42, 15/42, 32/42]]

/-- The loop of `evaluate` over the first `m` weights. -/
def accumulate (x : List (Flt K)) (start : ℕ) (m : ℕ) (w : Fin m → K) : Option (Flt K) :=
  forFin m (fun j acc => (x[start + j]?).map (fun value => acc + .fin (w j) * value)) (.fin 0)

/-- `evaluate`. -/
def evaluate (R : Rounding K) (x : List (Flt K)) (start : ℕ) (weight_row : Fin 7) :
    Option (Flt K) :=
  (accumulate x start 7 (kWeights K weight_row)).map R.toFloat

/-- The assignment of a smoothed value to an element. -/
def smoothAt (R : Rounding K) (source : List (Flt K)) (start : ℕ) (weight_row : Fin 7) (i : ℕ)
    (values : List (Flt K)) : Option (List (Flt K)) :=
  (evaluate R source start weight_row).bind (write values i)

/-- The loop of `savgol_7_2_interp` over the full interior windows; its variable is `k + 3`. -/
def smoothInterior (R : Rounding K) (source values : List (Flt K)) : Option (List (Flt K)) :=
  forFin (source.length - 6) (fun k values => smoothAt R source k 3 (k + 3) values) values

/-- `savgol_7_2_interp`. -/
def savgol72Interp (R : Rounding K) (values : List (Flt K)) : Option (List (Flt K)) :=
  if values.length < 7 then some values
  else do
    let source := values
    let n := values.length
    let values ← smoothAt R source 0 0 0 values
    let values ← smoothAt R source 0 1 1 values
    let values ← smoothAt R source 0 2 2 values
    let values ← smoothInterior R source values
    let start := n - 7
    let values ← smoothAt R source start 4 (n - 3) values
    let values ← smoothAt R source start 5 (n - 2) values
    smoothAt R source start 6 (n - 1) values

/-! ### The smoothing has a result -/

/-- The loop of `evaluate` has a result where the array has as many elements as needed. -/
theorem accumulate_isSome {x : List (Flt K)} {start m : ℕ} (w : Fin m → K)
    (h : start + m ≤ x.length) :
  ∃ acc, accumulate x start m w = some acc
  := by
  obtain ⟨acc, hacc, -⟩ := forFin_spec
    (fun (j : Fin m) acc => (x[start + j]?).map (fun value => acc + .fin (w j) * value))
    (Flt.fin 0)
    (fun _ _ => True) trivial (by
      intro j acc _
      rw [List.getElem?_eq_getElem (by omega)]
      exact ⟨_, rfl, trivial⟩)
  exact ⟨acc, hacc⟩

/-- A step of the smoothing has a result, of the same length. -/
theorem smoothAt_isSome (R : Rounding K) {source : List (Flt K)} (start : ℕ) (row : Fin 7) (i : ℕ)
    {values : List (Flt K)} (hstart : start + 7 ≤ source.length) (hi : i < source.length)
    (hlen : values.length = source.length) :
  ∃ values', smoothAt R source start row i values = some values'
    ∧ values'.length = source.length
  := by
  obtain ⟨acc, hacc⟩ := accumulate_isSome (kWeights K row) hstart
  rw [smoothAt, evaluate, hacc, Option.map_some, Option.bind_some, write_eq _ (by omega)]
  exact ⟨_, rfl, by simpa using hlen⟩

/-- The smoothing has a result, of the same length. -/
theorem savgol72Interp_isSome (R : Rounding K) (values : List (Flt K)) :
  ∃ values', savgol72Interp R values = some values' ∧ values'.length = values.length
  := by
  rw [savgol72Interp]
  by_cases hn : values.length < 7
  · rw [if_pos hn]
    exact ⟨_, rfl, rfl⟩
  · rw [if_neg hn]
    have hn : 7 ≤ values.length := by omega
    obtain ⟨v₀, hv₀, h⟩ := smoothAt_isSome R 0 0 0 hn (by omega) rfl
    obtain ⟨v₁, hv₁, h⟩ := smoothAt_isSome R 0 1 1 hn (by omega) h
    obtain ⟨v₂, hv₂, h⟩ := smoothAt_isSome R 0 2 2 hn (by omega) h
    obtain ⟨v₃, hv₃, h⟩ := forFin_spec
      (fun (k : Fin (values.length - 6)) values' => smoothAt R values k 3 (k + 3) values') v₂
      (fun _ values' => values'.length = values.length) h (by
        intro k values' hk
        apply smoothAt_isSome R k 3 (k + 3) (by omega) (by omega) hk)
    obtain ⟨v₄, hv₄, h⟩ := smoothAt_isSome R (values.length - 7) 4 (values.length - 3)
      (by omega) (by omega) h
    obtain ⟨v₅, hv₅, h⟩ := smoothAt_isSome R (values.length - 7) 5 (values.length - 2)
      (by omega) (by omega) h
    obtain ⟨v₆, hv₆, h⟩ := smoothAt_isSome R (values.length - 7) 6 (values.length - 1)
      (by omega) (by omega) h
    use v₆
    simp only [smoothInterior, hv₀, hv₁, hv₂, hv₃, hv₄, hv₅, hv₆, Option.bind_eq_bind,
      Option.bind_some]
    exact ⟨trivial, h⟩

/-! ### The weights -/

open Polynomial

/-- The kernel that reproduces the quadratic polynomials on the nodes `0, …, 6`. -/
noncomputable def quadraticKernel (K : Type u) [Field K] (i : ℕ) : K[X] :=
  C (1 / 7) + C (((i : K) - 3) / 28) * (X - C 3)
    + C ((((i : K) - 3) ^ 2 - 4) / 84) * ((X - C 3) ^ 2 - C 4)

omit [LinearOrder K] in
theorem eval_quadraticKernel (i : ℕ) (x : K) :
  (quadraticKernel K i).eval x
    = 1 / 7 + (i - 3) / 28 * (x - 3) + ((i - 3) ^ 2 - 4) / 84 * ((x - 3) ^ 2 - 4)
  := by
  simp [quadraticKernel]

/-- The kernel reproduces the polynomials of degree at most two. -/
theorem isReproducing_quadraticKernel [IsStrictOrderedRing K] :
  IsReproducing (Finset.range 7) (fun j => (j : K)) 2 (quadraticKernel K)
  := by
  constructor
  · intro i
    rw [quadraticKernel]
    compute_degree
  · intro q hq i hi
    rw [eq_quadratic_of_degree_le_two (natDegree_le_iff_degree_le.mp hq)]
    simp only [eval_quadraticKernel, eval_add, eval_mul, eval_pow, eval_C, eval_X,
      Finset.sum_range_succ, Finset.sum_range_zero]
    push_cast
    field_simp
    ring

/-- The weights are the values of the kernel. -/
theorem kWeights_eq [IsStrictOrderedRing K] (row j : Fin 7) :
  kWeights K row j = (quadraticKernel K j).eval ((row : ℕ) : K)
  := by
  rw [eval_quadraticKernel]
  fin_cases row <;> fin_cases j <;> norm_num [kWeights]

/-! ### The smoothed channel -/

/-- The first of the seven indices whose fit gives the smoothed value at `i`. -/
def fitStart (n i : ℕ) : ℕ :=
  if i < 3 then 0 else if n ≤ i + 3 then n - 7 else i - 3

/-- The ends, and the indices between them. -/
theorem fitStart_eq (n i : ℕ) :
  fitStart n i = if i < 3 then 0 else if n - 3 ≤ i then n - 7 else i - 3
  := by
  rw [fitStart]
  congr 2
  apply propext
  omega

/-- Smoothing by quadratic least-squares fits to seven values, where there are seven. -/
noncomputable def savgol (f : ℕ → K) (n i : ℕ) : K :=
  if n < 7 then f i
  else
    (leastSquaresFit (Finset.range 7) (fun j => (j : K)) (fun j => f (fitStart n i + j)) 2).eval
      ((i - fitStart n i : ℕ) : K)

omit [LinearOrder K] in
/-- The loop of `evaluate` on finite values sums up the weighted values. -/
theorem accumulate_table [LinearOrder K] (f : ℕ → K) {n start m : ℕ} (w : Fin m → K)
    (h : start + m ≤ n) :
  accumulate (table n (fun i => .fin (f i))) start m w
    = some (.fin (∑ j : Fin m, w j * f (start + j)))
  := by
  rw [accumulate]
  induction m with
  | zero => simp [forFin]
  | succ m ih =>
      rw [forFin]
      simp only [Fin.val_castSucc]
      rw [ih (fun j => w j.castSucc) (by omega), Option.bind_some,
        getElem?_table _ (by simp; omega), Option.map_some, Fin.sum_univ_castSucc, Flt.fin_mul,
        Flt.fin_add]
      rfl

variable [IsStrictOrderedRing K]

/-- The value of the quadratic fit at a node is a weighted sum of the values. -/
theorem eval_leastSquaresFit (y : ℕ → K) (row : Fin 7) :
  (leastSquaresFit (Finset.range 7) (fun j => (j : K)) y 2).eval ((row : ℕ) : K)
    = ∑ j : Fin 7, kWeights K row j * y j
  := by
  have hmem : (row : ℕ) ∈ Finset.range 7 := Finset.mem_range.mpr row.isLt
  have hfit := isReproducing_quadraticKernel.isLeastSquaresFit y
  rw [isReproducing_quadraticKernel.eval_fit hfit hmem, Finset.sum_range]
  simp only [kWeights_eq, mul_comm]

/-- `evaluate` computes the value of the quadratic fit at a node, rounded. -/
theorem evaluate_table (R : Rounding K) (f : ℕ → K) {n start : ℕ} (row : Fin 7)
    (h : start + 7 ≤ n) :
  evaluate R (table n (fun i => .fin (f i))) start row
    = some (R.toFloat (.fin ((leastSquaresFit (Finset.range 7) (fun j => (j : K))
        (fun j => f (start + j)) 2).eval ((row : ℕ) : K))))
  := by
  rw [evaluate, accumulate_table f _ h, Option.map_some, eval_leastSquaresFit]

/-- The array has the length `n` and holds the smoothed values at the indices in `D`. -/
def Smoothed (R : Rounding K) (f : ℕ → K) (n : ℕ) (D : ℕ → Prop) (values : List (Flt K)) : Prop :=
  values.length = n ∧ ∀ i, D i → i < n → values[i]? = some (R.toFloat (.fin (savgol f n i)))

/-- The fit that gives a smoothed value is to seven of the values. -/
theorem fitStart_le {n : ℕ} (hn : 7 ≤ n) {i : ℕ} (hi : i < n) :
  fitStart n i + 7 ≤ n ∧ fitStart n i ≤ i ∧ i < fitStart n i + 7
  := by
  rw [fitStart]
  split
  · omega
  · split <;> omega

/-- The assignment of a smoothed value is the assignment of the value of `savgol`, rounded. -/
theorem smoothAt_eq (R : Rounding K) (f : ℕ → K) {n : ℕ} (hn : 7 ≤ n) {start : ℕ} {row : Fin 7}
    {i : ℕ} (hi : i < n) (hstart : start = fitStart n i) (hrow : i = start + row)
    (values : List (Flt K)) :
  smoothAt R (table n (fun i => .fin (f i))) start row i values
    = write values i (R.toFloat (.fin (savgol f n i)))
  := by
  have hfit := (fitStart_le hn hi).1
  rw [← hstart] at hfit
  rw [smoothAt, evaluate_table R f row hfit, Option.bind_some, savgol, if_neg (by omega), ← hstart]
  congr 5
  omega

/-- A step of the smoothing adds an index to the smoothed ones. -/
theorem Smoothed.step {R : Rounding K} {f : ℕ → K} {n : ℕ} {D : ℕ → Prop} {values : List (Flt K)}
    (h : Smoothed R f n D values) (hn : 7 ≤ n) (start : ℕ) (row : Fin 7) (i : ℕ)
    (hstart : start = fitStart n i) (hrow : i = start + row) (hi : i < n) :
  ∃ values', smoothAt R (table n (fun i => .fin (f i))) start row i values
      = some values' ∧ Smoothed R f n (fun j => D j ∨ j = i) values'
  := by
  obtain ⟨hlen, hval⟩ := h
  use values.set i (R.toFloat (.fin (savgol f n i)))
  rw [smoothAt_eq R f hn hi hstart hrow, write_eq _ (by omega)]
  refine ⟨rfl, by simpa using hlen, ?_⟩
  intro j hj hjn
  by_cases hji : j = i
  · subst hji
    rw [List.getElem?_set_self (by omega)]
  · rw [List.getElem?_set_ne (Ne.symm hji)]
    apply hval j (hj.resolve_right hji) hjn

/-- The loop over the interior adds its indices to the smoothed ones. -/
theorem Smoothed.interior {R : Rounding K} {f : ℕ → K} {n : ℕ} {values : List (Flt K)}
    (h : Smoothed R f n (fun i => i < 3) values) (hn : 7 ≤ n) :
  ∃ values', smoothInterior R (table n (fun i => .fin (f i))) values
      = some values' ∧ Smoothed R f n (fun i => i < n - 3) values'
  := by
  have hlen := length_table n (fun i => Flt.fin (f i))
  rw [smoothInterior]
  obtain ⟨values', hv, h'⟩ := forFin_spec
    (fun (k : Fin ((table n (fun i => Flt.fin (f i))).length - 6)) values =>
      smoothAt R (table n (fun i => .fin (f i))) k 3 (k + 3) values)
    values
    (fun k values => Smoothed R f n (fun i => i < k + 3) values) (by simpa using h) (by
      intro k values hk
      have hk' := k.isLt
      obtain ⟨values', hv, h'⟩ := hk.step hn k 3 (k + 3)
        (by rw [fitStart, if_neg (by omega), if_neg (by omega)]; omega) rfl (by omega)
      exact ⟨values', hv, h'.1, fun i hi => h'.2 i (by omega)⟩)
  exact ⟨values', hv, h'.1, fun i hi => h'.2 i (by omega)⟩

/-- The smoothed channel holds the values of `savgol`, rounded. -/
theorem savgol72Interp_eq (R : Rounding K) (f : ℕ → K) {n : ℕ} (hn : 7 ≤ n) :
  savgol72Interp R (table n (fun i => .fin (f i)))
    = some (table n (fun i => R.toFloat (.fin (savgol f n i))))
  := by
  have hright : ∀ i, n ≤ i + 3 → i < n → n - 7 = fitStart n i := by
    intro i hi hin
    rw [fitStart, if_neg (by omega), if_pos hi]
  have h : Smoothed R f n (fun _ => False) (table n (fun i => .fin (f i))) :=
    ⟨length_table _ _, fun _ hfalse => hfalse.elim⟩
  obtain ⟨v₀, hv₀, h⟩ := h.step hn 0 0 0 rfl rfl (by omega)
  obtain ⟨v₁, hv₁, h⟩ := h.step hn 0 1 1 rfl rfl (by omega)
  obtain ⟨v₂, hv₂, h⟩ := h.step hn 0 2 2 rfl rfl (by omega)
  have h : Smoothed R f n (fun i => i < 3) v₂ := ⟨h.1, fun i hi => h.2 i (by omega)⟩
  obtain ⟨v₃, hv₃, h⟩ := h.interior hn
  obtain ⟨v₄, hv₄, h⟩ := h.step hn (n - 7) 4 (n - 3)
    (hright _ (by omega) (by omega)) (by simp; omega) (by omega)
  obtain ⟨v₅, hv₅, h⟩ := h.step hn (n - 7) 5 (n - 2)
    (hright _ (by omega) (by omega)) (by simp; omega) (by omega)
  obtain ⟨v₆, hv₆, h⟩ := h.step hn (n - 7) 6 (n - 1)
    (hright _ (by omega) (by omega)) (by simp; omega) (by omega)
  rw [savgol72Interp, if_neg (by simpa using hn)]
  simp only [length_table, hv₀, hv₁, hv₂, hv₃, hv₄, hv₅, hv₆, Option.bind_eq_bind,
    Option.bind_some]
  congr 1
  apply eq_table h.1
  intro i hi
  apply h.2 i (by omega) hi

/-! ### Bounds -/

/-- The weights of the values of a smoothed value. -/
theorem savgol_eq_sum (f : ℕ → K) {n i : ℕ} (hn : 7 ≤ n) {row : Fin 7}
    (hrow : i = fitStart n i + row) :
  savgol f n i = ∑ j : Fin 7, kWeights K row j * f (fitStart n i + j)
  := by
  have hsub : i - fitStart n i = row := by omega
  rw [savgol, if_neg (by omega), hsub, eval_leastSquaresFit (fun j => f (fitStart n i + j)) row]

/-- The smoothed values are determined by the values. -/
theorem savgol_congr {f g : ℕ → K} {n : ℕ} (h : ∀ i, i < n → f i = g i) {i : ℕ} (hi : i < n) :
  savgol f n i = savgol g n i
  := by
  by_cases hn : n < 7
  · rw [savgol, savgol, if_pos hn, if_pos hn, h i hi]
  · have hn : 7 ≤ n := by omega
    obtain ⟨hle, hstart, hlt⟩ := fitStart_le hn hi
    have hrow : i = fitStart n i + (⟨i - fitStart n i, by omega⟩ : Fin 7) := by
      simp only
      omega
    rw [savgol_eq_sum f hn hrow, savgol_eq_sum g hn hrow]
    apply Finset.sum_congr rfl
    intro j _
    rw [h _ (by omega)]

/-- The weighted sums of values in an interval leave it by at most 13/42 of its length, since no
row of weights has negative weights below -13/42 in sum. -/
theorem sum_kWeights_mem {y : Fin 7 → K} {lo hi : K} (hy : ∀ j, lo ≤ y j ∧ y j ≤ hi) (row : Fin 7) :
  lo - 13 / 42 * (hi - lo) ≤ ∑ j, kWeights K row j * y j
    ∧ ∑ j, kWeights K row j * y j ≤ hi + 13 / 42 * (hi - lo)
  := by
  have h₀ := hy 0
  have h₁ := hy 1
  have h₂ := hy 2
  have h₃ := hy 3
  have h₄ := hy 4
  have h₅ := hy 5
  have h₆ := hy 6
  simp only [Fin.sum_univ_seven, kWeights_eq, eval_quadraticKernel]
  fin_cases row <;> norm_num <;> constructor <;> linarith

/-- The smoothed values of a sequence in an interval leave it by at most 13/42 of its length. -/
theorem savgol_mem {f : ℕ → K} {n : ℕ} {lo hi : K} (hf : ∀ i, i < n → lo ≤ f i ∧ f i ≤ hi) {i : ℕ}
    (h : i < n) :
  lo - 13 / 42 * (hi - lo) ≤ savgol f n i ∧ savgol f n i ≤ hi + 13 / 42 * (hi - lo)
  := by
  by_cases hn : n < 7
  · have hfi := hf i h
    rw [savgol, if_pos hn]
    constructor <;> linarith
  · have hn : 7 ≤ n := by omega
    obtain ⟨hend, hle, hlt⟩ := fitStart_le hn h
    have hrow : i = fitStart n i + (⟨i - fitStart n i, by omega⟩ : Fin 7) := by
      rw [Fin.val_mk]
      omega
    rw [savgol_eq_sum f hn hrow]
    apply sum_kWeights_mem
    intro j
    apply hf
    omega

/-- A constant sequence is not changed by smoothing. -/
theorem savgol_of_const {f : ℕ → K} {n : ℕ} {y : K} (hf : ∀ i, i < n → f i = y) {i : ℕ}
    (h : i < n) :
  savgol f n i = y
  := by
  have hmem : ∀ j, j < n → y ≤ f j ∧ f j ≤ y := by
    intro j hj
    rw [hf j hj]
    exact ⟨le_rfl, le_rfl⟩
  obtain ⟨hlo, hhi⟩ := savgol_mem hmem h
  linarith

/-! ### Reversal -/

/-- The weights are symmetric. -/
theorem kWeights_rev (row j : Fin 7) :
  kWeights K row.rev j.rev = kWeights K row j
  := by
  have hrow : ((row.rev : ℕ) : K) = 6 - (row : ℕ) := by
    rw [Fin.val_rev, Nat.cast_sub (by omega)]
    push_cast
    ring
  have hj : ((j.rev : ℕ) : K) = 6 - (j : ℕ) := by
    rw [Fin.val_rev, Nat.cast_sub (by omega)]
    push_cast
    ring
  rw [kWeights_eq, kWeights_eq, eval_quadraticKernel, eval_quadraticKernel, hrow, hj]
  ring

/-- Smoothing commutes with reversal. -/
theorem mirrored_savgol {n : ℕ} {f g : ℕ → K} (h : Mirrored n f g) :
  Mirrored n (savgol f n) (savgol g n)
  := by
  intro i hi
  by_cases hn : n < 7
  · rw [savgol, savgol, if_pos hn, if_pos hn, h i hi]
  · have hn : 7 ≤ n := by omega
    obtain ⟨hend, hle, hlt⟩ := fitStart_le hn hi
    have hstart : fitStart n (n - 1 - i) = n - 7 - fitStart n i := by
      simp only [fitStart]
      split_ifs <;> omega
    have hrow : i = fitStart n i + (⟨i - fitStart n i, by omega⟩ : Fin 7) := by
      rw [Fin.val_mk]
      omega
    have hrow' : n - 1 - i
        = fitStart n (n - 1 - i) + ((⟨i - fitStart n i, by omega⟩ : Fin 7).rev : Fin 7) := by
      rw [Fin.val_rev, hstart, Fin.val_mk]
      omega
    rw [savgol_eq_sum g hn hrow, savgol_eq_sum f hn hrow', hstart, ← Equiv.sum_comp Fin.revPerm]
    apply Finset.sum_congr rfl
    intro j _
    rw [Fin.revPerm_apply, ← kWeights_rev, h _ (by omega), Fin.rev_rev, Fin.val_rev]
    congr 2
    omega

/-! ### Lists of numbers -/

/-- Smoothing of a list of numbers, in exact arithmetic. -/
theorem savgol72Interp_map (x : List K) :
  savgol72Interp (Rounding.exact K) (x.map .fin)
    = some ((table x.length (savgol (fun i => x.getD i 0) x.length)).map .fin)
  := by
  rw [map_table, map_eq_table x Flt.fin 0]
  by_cases hn : x.length < 7
  · rw [savgol72Interp, if_pos (by simpa using hn)]
    congr 2
    funext i
    rw [savgol, if_pos hn]
  · rw [savgol72Interp_eq _ _ (by omega)]
    rfl

/-- The polynomial is a quadratic least-squares fit to the seven elements from `s` on, at the
nodes `0, …, 6`. -/
def IsWindowFit (x : List K) (s : ℕ) (p : K[X]) : Prop :=
  IsLeastSquaresFit (Finset.range 7) (fun j => (j : K)) (fun j => x.getD (s + j) 0) 2 p

/-- There is one fit to a window. -/
theorem IsWindowFit.eq {x : List K} {s : ℕ} {p q : K[X]} (hp : IsWindowFit x s p)
    (hq : IsWindowFit x s q) :
  p = q
  := by
  apply isReproducing_quadraticKernel.eq_fit _ _ hp hq
  · apply Nat.cast_injective.injOn
  · simp

/-- A smoothed value is the value of the fit. -/
theorem IsWindowFit.savgol_eq {x : List K} {p : K[X]} {i : ℕ} (hn : 7 ≤ x.length)
    (hi : i < x.length) (hp : IsWindowFit x (fitStart x.length i) p) :
  savgol (fun i => x.getD i 0) x.length i = p.eval ((i : K) - fitStart x.length i)
  := by
  have hfit : IsWindowFit x (fitStart x.length i) (leastSquaresFit (Finset.range 7)
      (fun j => (j : K)) (fun j => x.getD (fitStart x.length i + j) 0) 2) :=
    isReproducing_quadraticKernel.isLeastSquaresFit _
  rw [savgol, if_neg (by omega), hfit.eq hp, Nat.cast_sub (fitStart_le hn hi).2.1]

/-- A polynomial whose values are the elements of a list gives, shifted, the fits. -/
theorem isWindowFit_comp {x : List K} {p : K[X]} (hp : p.natDegree ≤ 2)
    (hx : ∀ i, i < x.length → x[i]? = some (p.eval (i : K))) {s : ℕ} (hs : s + 7 ≤ x.length) :
  IsWindowFit x s (p.comp (X + C (s : K)))
  := by
  apply isLeastSquaresFit_of_eval_eq
  · rw [natDegree_comp, natDegree_X_add_C, mul_one]
    apply hp
  · intro j hj
    have hj := Finset.mem_range.mp hj
    rw [List.getD_eq_getElem?_getD, hx (s + j) (by omega), Option.getD_some, eval_comp]
    congr 1
    simp
    ring

/-- A smoothed sequence holds the values of the quadratic least-squares fits to the seven
elements at the beginning, around the index, or at the end; where there are fewer than seven
elements, and where the elements are the values of a polynomial of degree at most two, it is the
sequence itself. -/
theorem savgol72Interp_isLeastSquaresFit (x : List ℚ) :
  ∃ out : List ℚ, savgol72Interp (Rounding.exact ℚ) (x.map .fin) = some (out.map .fin)
    ∧ out.length = x.length
    ∧ (x.length < 7 → out = x)
    ∧ (7 ≤ x.length → ∀ i s, i < x.length →
        s = (if i < 3 then 0 else if x.length - 3 ≤ i then x.length - 7 else i - 3) →
        s + 7 ≤ x.length
        ∧ (∃! p : ℚ[X], IsWindowFit x s p)
        ∧ ∀ p : ℚ[X], IsWindowFit x s p → out[i]? = some (p.eval ((i : ℚ) - s)))
    ∧ ∀ p : ℚ[X], p.natDegree ≤ 2 → (∀ i, i < x.length → x[i]? = some (p.eval (i : ℚ))) →
        out = x
  := by
  use table x.length (savgol (fun i => x.getD i 0) x.length)
  refine ⟨savgol72Interp_map x, length_table _ _, ?_, ?_, ?_⟩
  · intro hn
    symm
    apply eq_table rfl
    intro i hi
    rw [savgol, if_pos hn]
    apply getElem?_eq_getD hi
  · intro hn i s hi hs
    obtain rfl : s = fitStart x.length i := hs.trans (fitStart_eq _ _).symm
    refine ⟨(fitStart_le hn hi).1, ⟨_, isReproducing_quadraticKernel.isLeastSquaresFit _, ?_⟩, ?_⟩
    · intro q hq
      apply hq.eq (isReproducing_quadraticKernel.isLeastSquaresFit _)
    · intro p hp
      rw [getElem?_table _ hi, hp.savgol_eq hn hi]
  · intro p hp hx
    symm
    apply eq_table rfl
    intro i hi
    rw [hx i hi]
    congr 1
    by_cases hn : x.length < 7
    · rw [savgol, if_pos hn, List.getD_eq_getElem?_getD, hx i hi, Option.getD_some]
    · have hn : 7 ≤ x.length := by omega
      rw [(isWindowFit_comp hp hx (fitStart_le hn hi).1).savgol_eq hn hi, eval_comp]
      congr 1
      simp
