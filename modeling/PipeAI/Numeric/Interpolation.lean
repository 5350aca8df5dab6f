import Mathlib.Algebra.Order.Floor.Semiring
import Mathlib.Tactic.FieldSimp
import Mathlib.Tactic.Linarith
import Mathlib.Tactic.Ring

/-!
# Linear interpolation of sequences

`piecewiseLinear f` is the piecewise-linear function with the value `f i` at every natural
number `i`.  `fillGaps v n hold` fills the gaps of a sequence with values at some of the
indices below `n`: by linear interpolation between the nearest values, by the nearest value
at either end, and by `hold` when there is no value at all.
-/

universe u

variable {K : Type u} [Field K]

/-! ### The piecewise-linear interpolant -/

section PiecewiseLinear

variable [LinearOrder K] [FloorSemiring K]

/-- The piecewise-linear function through the points `(i, f i)`. -/
def piecewiseLinear (f : ℕ → K) (x : K) : K :=
  f ⌊x⌋₊ + (f (⌊x⌋₊ + 1) - f ⌊x⌋₊) * (x - ⌊x⌋₊)

variable [IsStrictOrderedRing K]

/-- The interpolant between `q` and `q + 1`. -/
theorem piecewiseLinear_of_mem (f : ℕ → K) {x : K} {q : ℕ} (hlo : (q : K) ≤ x)
    (hhi : x < q + 1) :
  piecewiseLinear f x = f q + (f (q + 1) - f q) * (x - q)
  := by
  have hfloor : ⌊x⌋₊ = q := by
    rw [Nat.floor_eq_iff (le_trans (Nat.cast_nonneg q) hlo)]
    exact ⟨hlo, hhi⟩
  rw [piecewiseLinear, hfloor]

/-- The interpolant at a natural number. -/
theorem piecewiseLinear_natCast (f : ℕ → K) (q : ℕ) :
  piecewiseLinear f (q : K) = f q
  := by
  rw [piecewiseLinear_of_mem f le_rfl (by linarith)]
  simp

end PiecewiseLinear

/-! ### Gaps -/

/-- The last index up to `i` with a value, and the value there. -/
def nearestBelow (v : ℕ → Option K) : ℕ → Option (ℕ × K)
  | 0 => (v 0).map (fun y => (0, y))
  | i + 1 =>
      match v (i + 1) with
      | some y => some (i + 1, y)
      | none => nearestBelow v i

/-- The first of the `m` indices from `i` on with a value, and the value there. -/
def nearestAbove (v : ℕ → Option K) (i : ℕ) : ℕ → Option (ℕ × K)
  | 0 => none
  | m + 1 =>
      match v i with
      | some y => some (i, y)
      | none => nearestAbove v (i + 1) m

/-- The sequence `v` with the gaps below `n` filled. -/
def fillGaps (v : ℕ → Option K) (n : ℕ) (hold : K) (i : ℕ) : K :=
  match nearestBelow v i, nearestAbove v i (n - i) with
  | none, none => hold
  | some (_, y), none => y
  | none, some (_, y) => y
  | some (l, y₀), some (r, y₁) => y₀ + (y₁ - y₀) * ((i - l : ℕ) / (r - l : ℕ))

omit [Field K] in
theorem nearestBelow_eq_some {v : ℕ → Option K} {l i : ℕ} {y : K} (hv : v l = some y)
    (hle : l ≤ i) (hgap : ∀ k, l < k → k ≤ i → v k = none) :
  nearestBelow v i = some (l, y)
  := by
  induction i with
  | zero =>
      obtain rfl : l = 0 := by omega
      simp [nearestBelow, hv]
  | succ i ih =>
      rw [nearestBelow]
      by_cases h : l = i + 1
      · subst h
        rw [hv]
      · rw [hgap (i + 1) (by omega) le_rfl]
        apply ih (by omega)
        intro k hk hki
        apply hgap k hk (by omega)

omit [Field K] in
theorem nearestBelow_eq_none {v : ℕ → Option K} {i : ℕ} (hgap : ∀ k, k ≤ i → v k = none) :
  nearestBelow v i = none
  := by
  induction i with
  | zero => simp [nearestBelow, hgap 0 le_rfl]
  | succ i ih =>
      rw [nearestBelow, hgap (i + 1) le_rfl]
      apply ih
      intro k hk
      apply hgap k (by omega)

omit [Field K] in
theorem nearestAbove_eq_some {v : ℕ → Option K} {i r m : ℕ} {y : K} (hv : v r = some y)
    (hle : i ≤ r) (hm : r < i + m) (hgap : ∀ k, i ≤ k → k < r → v k = none) :
  nearestAbove v i m = some (r, y)
  := by
  induction m generalizing i with
  | zero => omega
  | succ m ih =>
      rw [nearestAbove]
      by_cases h : i = r
      · subst h
        rw [hv]
      · rw [hgap i le_rfl (by omega)]
        apply ih (by omega) (by omega)
        intro k hk hkr
        apply hgap k (by omega) hkr

omit [Field K] in
theorem nearestAbove_eq_none {v : ℕ → Option K} {i m : ℕ}
    (hgap : ∀ k, i ≤ k → k < i + m → v k = none) :
  nearestAbove v i m = none
  := by
  induction m generalizing i with
  | zero => rfl
  | succ m ih =>
      rw [nearestAbove, hgap i le_rfl (by omega)]
      apply ih
      intro k hk hkm
      apply hgap k (by omega) (by omega)

omit [Field K] in
/-- The nearest value below is the value at an index, with no value between. -/
theorem nearestBelow_spec {v : ℕ → Option K} {i l : ℕ} {y : K}
    (h : nearestBelow v i = some (l, y)) :
  l ≤ i ∧ v l = some y ∧ ∀ k, l < k → k ≤ i → v k = none
  := by
  induction i with
  | zero =>
      rw [nearestBelow, Option.map_eq_some_iff] at h
      obtain ⟨y', hy', heq⟩ := h
      cases heq
      refine ⟨le_rfl, hy', by omega⟩
  | succ i ih =>
      rw [nearestBelow] at h
      rcases hv : v (i + 1) with _ | y'
      · rw [hv] at h
        obtain ⟨hle, hl, hgap⟩ := ih h
        refine ⟨by omega, hl, ?_⟩
        intro k hk hki
        by_cases hkeq : k = i + 1
        · rw [hkeq, hv]
        · apply hgap k hk (by omega)
      · rw [hv] at h
        cases h
        refine ⟨le_rfl, hv, by omega⟩

omit [Field K] in
/-- The nearest value above is the value at an index, with no value between. -/
theorem nearestAbove_spec {v : ℕ → Option K} {i m r : ℕ} {y : K}
    (h : nearestAbove v i m = some (r, y)) :
  i ≤ r ∧ r < i + m ∧ v r = some y ∧ ∀ k, i ≤ k → k < r → v k = none
  := by
  induction m generalizing i with
  | zero => cases h
  | succ m ih =>
      rw [nearestAbove] at h
      rcases hv : v i with _ | y'
      · rw [hv] at h
        obtain ⟨hle, hlt, hr, hgap⟩ := ih h
        refine ⟨by omega, by omega, hr, ?_⟩
        intro k hk hkr
        by_cases hkeq : k = i
        · rw [hkeq, hv]
        · apply hgap k (by omega) hkr
      · rw [hv] at h
        cases h
        refine ⟨le_rfl, by omega, hv, by omega⟩

omit [Field K] in
/-- Without a nearest value below there is none. -/
theorem eq_none_of_nearestBelow {v : ℕ → Option K} {i : ℕ} (h : nearestBelow v i = none) {k : ℕ}
    (hk : k ≤ i) :
  v k = none
  := by
  induction i with
  | zero =>
      rw [nearestBelow, Option.map_eq_none_iff] at h
      rw [Nat.le_zero.mp hk, h]
  | succ i ih =>
      rw [nearestBelow] at h
      rcases hv : v (i + 1) with _ | y'
      · rw [hv] at h
        rcases Nat.lt_or_ge i k with hlt | hge
        · rw [(by omega : k = i + 1), hv]
        · apply ih h hge
      · rw [hv] at h
        cases h

omit [Field K] in
/-- Without a nearest value above there is none. -/
theorem eq_none_of_nearestAbove {v : ℕ → Option K} {i m : ℕ} (h : nearestAbove v i m = none)
    {k : ℕ} (hik : i ≤ k) (hkm : k < i + m) :
  v k = none
  := by
  induction m generalizing i with
  | zero => omega
  | succ m ih =>
      rw [nearestAbove] at h
      rcases hv : v i with _ | y'
      · rw [hv] at h
        rcases Nat.eq_or_lt_of_le hik with rfl | hlt
        · apply hv
        · apply ih h hlt (by omega)
      · rw [hv] at h
        cases h

/-- Without any value every index is filled with `hold`. -/
theorem fillGaps_of_none {v : ℕ → Option K} {n : ℕ} {hold : K} {i : ℕ} (hi : i < n)
    (hv : ∀ k, k < n → v k = none) :
  fillGaps v n hold i = hold
  := by
  rw [fillGaps, nearestBelow_eq_none, nearestAbove_eq_none]
  · intro k _ hk
    apply hv k (by omega)
  · intro k hk
    apply hv k (by omega)

/-- The values of the sequence stay. -/
theorem fillGaps_of_some {v : ℕ → Option K} {n : ℕ} {hold : K} {i : ℕ} {y : K} (hi : i < n)
    (hv : v i = some y) :
  fillGaps v n hold i = y
  := by
  rw [fillGaps, nearestBelow_eq_some hv le_rfl (by omega),
    nearestAbove_eq_some hv le_rfl (by omega) (by omega)]
  simp

/-- Before the first value, the gap is filled with it. -/
theorem fillGaps_before {v : ℕ → Option K} {n : ℕ} {hold : K} {i r : ℕ} {y : K} (hir : i < r)
    (hr : r < n) (hv : v r = some y) (hgap : ∀ k, k < r → v k = none) :
  fillGaps v n hold i = y
  := by
  rw [fillGaps, nearestBelow_eq_none, nearestAbove_eq_some hv hir.le (by omega)]
  · intro k _ hk
    apply hgap k hk
  · intro k hk
    apply hgap k (by omega)

/-- After the last value, the gap is filled with it. -/
theorem fillGaps_after {v : ℕ → Option K} {n : ℕ} {hold : K} {i l : ℕ} {y : K} (hli : l < i)
    (hi : i < n) (hv : v l = some y) (hgap : ∀ k, l < k → k < n → v k = none) :
  fillGaps v n hold i = y
  := by
  rw [fillGaps, nearestBelow_eq_some hv hli.le, nearestAbove_eq_none]
  · intro k hk hkn
    apply hgap k (by omega) (by omega)
  · intro k hk hki
    apply hgap k hk (by omega)

/-- Between two consecutive values, the gap is filled by linear interpolation. -/
theorem fillGaps_between {v : ℕ → Option K} {n : ℕ} {hold : K} {l i r : ℕ} {y₀ y₁ : K}
    (hli : l < i) (hir : i < r) (hr : r < n) (hl : v l = some y₀) (hvr : v r = some y₁)
    (hgap : ∀ k, l < k → k < r → v k = none) :
  fillGaps v n hold i = y₀ + (y₁ - y₀) * ((i - l : ℕ) / (r - l : ℕ))
  := by
  rw [fillGaps, nearestBelow_eq_some hl hli.le, nearestAbove_eq_some hvr hir.le (by omega)]
  · intro k hk hkr
    apply hgap k (by omega) hkr
  · intro k hk hki
    apply hgap k hk (by omega)

section Bounds

variable [LinearOrder K] [IsStrictOrderedRing K]

/-- A value between two values is in every interval with these. -/
theorem lerp_mem {lo hi y₀ y₁ a : K} (h₀ : lo ≤ y₀ ∧ y₀ ≤ hi) (h₁ : lo ≤ y₁ ∧ y₁ ≤ hi)
    (ha : 0 ≤ a ∧ a ≤ 1) :
  lo ≤ y₀ + (y₁ - y₀) * a ∧ y₀ + (y₁ - y₀) * a ≤ hi
  := by
  have hlo := add_nonneg (mul_nonneg (sub_nonneg.mpr ha.2) (sub_nonneg.mpr h₀.1))
    (mul_nonneg ha.1 (sub_nonneg.mpr h₁.1))
  have hhi := add_nonneg (mul_nonneg (sub_nonneg.mpr ha.2) (sub_nonneg.mpr h₀.2))
    (mul_nonneg ha.1 (sub_nonneg.mpr h₁.2))
  constructor <;> linarith

/-- A value that fills a gap is in every interval with the nearest values, when there is one. -/
theorem fillGaps_mem_nearest {v : ℕ → Option K} {n : ℕ} {hold lo hi : K} {i : ℕ} (h : i < n)
    (hbelow : ∀ l y, nearestBelow v i = some (l, y) → lo ≤ y ∧ y ≤ hi)
    (habove : ∀ r y, nearestAbove v i (n - i) = some (r, y) → lo ≤ y ∧ y ≤ hi)
    (hsome : ∃ k, k < n ∧ v k ≠ none) :
  lo ≤ fillGaps v n hold i ∧ fillGaps v n hold i ≤ hi
  := by
  rw [fillGaps]
  rcases hb : nearestBelow v i with _ | ⟨l, y₀⟩
  · rcases ha : nearestAbove v i (n - i) with _ | ⟨r, y₁⟩
    · obtain ⟨k, hk, hne⟩ := hsome
      exfalso
      apply hne
      rcases Nat.lt_or_ge k i with hki | hik
      · apply eq_none_of_nearestBelow hb hki.le
      · apply eq_none_of_nearestAbove ha hik (by omega)
    · apply habove r y₁ ha
  · rcases ha : nearestAbove v i (n - i) with _ | ⟨r, y₁⟩
    · apply hbelow l y₀ hb
    · apply lerp_mem (hbelow l y₀ hb) (habove r y₁ ha)
      have hle := (nearestAbove_spec ha).1
      constructor
      · apply div_nonneg (Nat.cast_nonneg _) (Nat.cast_nonneg _)
      · apply div_le_one_of_le₀ _ (Nat.cast_nonneg _)
        rw [Nat.cast_le]
        omega

/-- The values that fill the gaps are in every interval with the values of the sequence, when
there is one. -/
theorem fillGaps_mem {v : ℕ → Option K} {n : ℕ} {hold lo hi : K}
    (hv : ∀ i y, i < n → v i = some y → lo ≤ y ∧ y ≤ hi) (hsome : ∃ k, k < n ∧ v k ≠ none) {i : ℕ}
    (h : i < n) :
  lo ≤ fillGaps v n hold i ∧ fillGaps v n hold i ≤ hi
  := by
  apply fillGaps_mem_nearest h _ _ hsome
  · intro l y hb
    obtain ⟨hle, hl, -⟩ := nearestBelow_spec hb
    apply hv l y (by omega) hl
  · intro r y ha
    obtain ⟨hge, hlt, hr, -⟩ := nearestAbove_spec ha
    apply hv r y (by omega) hr

/-- The values that fill the gaps of a sequence of positive values are positive. -/
theorem fillGaps_pos {v : ℕ → Option K} {n : ℕ} {hold : K}
    (hv : ∀ i y, i < n → v i = some y → 0 < y) (hsome : ∃ k, k < n ∧ v k ≠ none) {i : ℕ}
    (h : i < n) :
  0 < fillGaps v n hold i
  := by
  have hbelow : ∀ l y, nearestBelow v i = some (l, y) → 0 < y := by
    intro l y hb
    obtain ⟨hle, hl, -⟩ := nearestBelow_spec hb
    apply hv l y (by omega) hl
  have habove : ∀ r y, nearestAbove v i (n - i) = some (r, y) → 0 < y := by
    intro r y ha
    obtain ⟨hge, hlt, hr, -⟩ := nearestAbove_spec ha
    apply hv r y (by omega) hr
  have hbounds : ∃ lo hi, 0 < lo ∧ (∀ l y, nearestBelow v i = some (l, y) → lo ≤ y ∧ y ≤ hi)
      ∧ ∀ r y, nearestAbove v i (n - i) = some (r, y) → lo ≤ y ∧ y ≤ hi := by
    rcases hb : nearestBelow v i with _ | ⟨l, y₀⟩
    · rcases ha : nearestAbove v i (n - i) with _ | ⟨r, y₁⟩
      · use 1, 1
        simp
      · use y₁, y₁
        simpa using habove r y₁ ha
    · have hpos := hbelow l y₀ hb
      rcases ha : nearestAbove v i (n - i) with _ | ⟨r, y₁⟩
      · use y₀, y₀
        simpa using hpos
      · use min y₀ y₁, max y₀ y₁
        have hpos' := habove r y₁ ha
        simp [hpos, hpos']
  obtain ⟨lo, hi, hlo, hb, ha⟩ := hbounds
  apply hlo.trans_le (fillGaps_mem_nearest h hb ha hsome).1

end Bounds

/-! ### Reversal -/

/-- The sequence `w` is the sequence `v` below `n`, in reversed order. -/
def Mirrored {α : Type u} (n : ℕ) (v w : ℕ → α) : Prop :=
  ∀ i, i < n → w i = v (n - 1 - i)

theorem Mirrored.symm {α : Type u} {n : ℕ} {v w : ℕ → α} (h : Mirrored n v w) :
  Mirrored n w v
  := by
  intro i hi
  rw [h (n - 1 - i) (by omega), (by omega : n - 1 - (n - 1 - i) = i)]

omit [Field K] in
/-- The nearest value above in a sequence is the nearest value below in the reversed one. -/
theorem Mirrored.nearestAbove_eq {n : ℕ} {v w : ℕ → Option K} (h : Mirrored n v w) {i : ℕ}
    (hi : i < n) :
  nearestAbove v (n - 1 - i) (n - (n - 1 - i))
    = (nearestBelow w i).map (fun p => (n - 1 - p.1, p.2))
  := by
  rcases hbelow : nearestBelow w i with _ | ⟨l, y⟩
  · apply nearestAbove_eq_none
    intro k hk hkn
    rw [h.symm k (by omega)]
    apply eq_none_of_nearestBelow hbelow
    omega
  · obtain ⟨hle, hl, hgap⟩ := nearestBelow_spec hbelow
    apply nearestAbove_eq_some
    · rw [h.symm _ (by omega), (by omega : n - 1 - (n - 1 - l) = l), hl]
    · simp only
      omega
    · simp only
      omega
    · intro k hk hkl
      simp only at hkl
      rw [h.symm k (by omega)]
      apply hgap
      · omega
      · omega

omit [Field K] in
/-- The nearest value below in a sequence is the nearest value above in the reversed one. -/
theorem Mirrored.nearestBelow_eq {n : ℕ} {v w : ℕ → Option K} (h : Mirrored n v w) {i : ℕ}
    (hi : i < n) :
  nearestBelow v (n - 1 - i) = (nearestAbove w i (n - i)).map (fun p => (n - 1 - p.1, p.2))
  := by
  rcases habove : nearestAbove w i (n - i) with _ | ⟨r, y⟩
  · apply nearestBelow_eq_none
    intro k hk
    rw [h.symm k (by omega)]
    apply eq_none_of_nearestAbove habove
    · omega
    · omega
  · obtain ⟨hge, hlt, hr, hgap⟩ := nearestAbove_spec habove
    apply nearestBelow_eq_some
    · rw [h.symm _ (by omega), (by omega : n - 1 - (n - 1 - r) = r), hr]
    · simp only
      omega
    · intro k hk hki
      simp only at hk
      rw [h.symm k (by omega)]
      apply hgap
      · omega
      · omega

/-- Filling the gaps commutes with reversal. -/
theorem mirrored_fillGaps [LinearOrder K] [IsStrictOrderedRing K] {n : ℕ} {v w : ℕ → Option K}
    (h : Mirrored n v w) (hold : K) :
  Mirrored n (fillGaps v n hold) (fillGaps w n hold)
  := by
  intro i hi
  rw [fillGaps, fillGaps, h.nearestAbove_eq hi, h.nearestBelow_eq hi]
  rcases hbelow : nearestBelow w i with _ | ⟨l, y₀⟩
  · rcases nearestAbove w i (n - i) with _ | ⟨r, y₁⟩ <;> rfl
  · rcases habove : nearestAbove w i (n - i) with _ | ⟨r, y₁⟩
    · rfl
    · obtain ⟨hle, hl, -⟩ := nearestBelow_spec hbelow
      obtain ⟨hge, hlt, hr, -⟩ := nearestAbove_spec habove
      have hleft : n - 1 - i - (n - 1 - r) = r - i := by omega
      have hspan : n - 1 - l - (n - 1 - r) = r - l := by omega
      simp only [Option.map_some, hleft, hspan]
      rcases hle.eq_or_lt with rfl | hlt
      · rcases hge.eq_or_lt with rfl | hlt
        · rw [hl, Option.some.injEq] at hr
          simp [hr]
        · have hne : ((r - l : ℕ) : K) ≠ 0 := by
            rw [Nat.cast_ne_zero]
            omega
          rw [div_self hne]
          simp
      · have hne : ((r - l : ℕ) : K) ≠ 0 := by
          rw [Nat.cast_ne_zero]
          omega
        have hsum : ((i - l : ℕ) : K) / (r - l : ℕ) = 1 - ((r - i : ℕ) : K) / (r - l : ℕ) := by
          rw [eq_sub_iff_add_eq, ← add_div, ← Nat.cast_add, (by omega : i - l + (r - i) = r - l),
            div_self hne]
        rw [hsum]
        ring

/-- The interpolant of the reversed sequence is the reversed interpolant. -/
theorem piecewiseLinear_mirrored [LinearOrder K] [FloorSemiring K] [IsStrictOrderedRing K] {n : ℕ}
    {f g : ℕ → K} (h : Mirrored n f g) (hn : 0 < n) {x : K} (h₀ : 0 ≤ x) (h₁ : x ≤ (n - 1 : ℕ)) :
  piecewiseLinear g x = piecewiseLinear f ((n - 1 : ℕ) - x)
  := by
  have hlo := Nat.floor_le h₀
  have hhi := Nat.lt_floor_add_one x
  have hq : ⌊x⌋₊ ≤ n - 1 := by
    rw [← Nat.cast_le (α := K)]
    apply hlo.trans h₁
  generalize ⌊x⌋₊ = q at *
  rcases hlo.eq_or_lt with rfl | hlt
  · rw [← Nat.cast_sub hq, piecewiseLinear_natCast, piecewiseLinear_natCast, h q (by omega)]
  · have hq' : q < n - 1 := by
      rw [← Nat.cast_lt (α := K)]
      apply hlt.trans_le h₁
    have hcast : ((n - 1 - (q + 1) : ℕ) : K) = (n - 1 : ℕ) - (q + 1) := by
      rw [Nat.cast_sub (by omega)]
      push_cast
      rfl
    rw [piecewiseLinear_of_mem g hlo hhi, piecewiseLinear_of_mem f (q := n - 1 - (q + 1)),
      h q (by omega), h (q + 1) (by omega), (by omega : n - 1 - (q + 1) + 1 = n - 1 - q), hcast]
    · ring
    · rw [hcast]
      linarith
    · rw [hcast]
      linarith

/-! ### Linear combinations -/

/-- The sequence `u` has values where `v` has, and `w`, and they are combinations of the values
there. -/
def Combines (a b : K) (v w u : ℕ → Option K) : Prop :=
  ∀ i, (v i = none ∧ w i = none ∧ u i = none)
    ∨ ∃ y z, v i = some y ∧ w i = some z ∧ u i = some (a * y + b * z)

section Combination

variable {a b : K} {v w u : ℕ → Option K}

/-- The nearest values below are at the same index. -/
theorem nearestBelow_of_combines (h : Combines a b v w u) (i : ℕ) :
  (nearestBelow v i = none ∧ nearestBelow w i = none ∧ nearestBelow u i = none)
    ∨ ∃ l y z, nearestBelow v i = some (l, y) ∧ nearestBelow w i = some (l, z)
      ∧ nearestBelow u i = some (l, a * y + b * z)
  := by
  induction i with
  | zero =>
      simp only [nearestBelow]
      obtain ⟨hv, hw, hu⟩ | ⟨y, z, hv, hw, hu⟩ := h 0
      · simp [hv, hw, hu]
      · right
        exact ⟨0, y, z, by simp [hv], by simp [hw], by simp [hu]⟩
  | succ i ih =>
      simp only [nearestBelow]
      obtain ⟨hv, hw, hu⟩ | ⟨y, z, hv, hw, hu⟩ := h (i + 1)
      · simpa only [hv, hw, hu] using ih
      · right
        exact ⟨i + 1, y, z, by simp [hv], by simp [hw], by simp [hu]⟩

/-- The nearest values above are at the same index. -/
theorem nearestAbove_of_combines (h : Combines a b v w u) (i m : ℕ) :
  (nearestAbove v i m = none ∧ nearestAbove w i m = none ∧ nearestAbove u i m = none)
    ∨ ∃ r y z, nearestAbove v i m = some (r, y) ∧ nearestAbove w i m = some (r, z)
      ∧ nearestAbove u i m = some (r, a * y + b * z)
  := by
  induction m generalizing i with
  | zero => exact Or.inl ⟨rfl, rfl, rfl⟩
  | succ m ih =>
      simp only [nearestAbove]
      obtain ⟨hv, hw, hu⟩ | ⟨y, z, hv, hw, hu⟩ := h i
      · simpa only [hv, hw, hu] using ih (i + 1)
      · right
        exact ⟨i, y, z, by simp [hv], by simp [hw], by simp [hu]⟩

/-- The gaps of a combination are filled by the combinations of what fills the gaps. -/
theorem fillGaps_of_combines (h : Combines a b v w u) (n : ℕ) (hold hold' : K) (i : ℕ) :
  fillGaps u n (a * hold + b * hold') i = a * fillGaps v n hold i + b * fillGaps w n hold' i
  := by
  rw [fillGaps, fillGaps, fillGaps]
  obtain ⟨hv, hw, hu⟩ | ⟨l, y, z, hv, hw, hu⟩ := nearestBelow_of_combines h i
  · obtain ⟨hv', hw', hu'⟩ | ⟨r, y', z', hv', hw', hu'⟩ := nearestAbove_of_combines h i (n - i)
    · rw [hv, hw, hu, hv', hw', hu']
    · rw [hv, hw, hu, hv', hw', hu']
  · obtain ⟨hv', hw', hu'⟩ | ⟨r, y', z', hv', hw', hu'⟩ := nearestAbove_of_combines h i (n - i)
    · rw [hv, hw, hu, hv', hw', hu']
    · rw [hv, hw, hu, hv', hw', hu']
      ring

/-- The interpolant of a combination is the combination of the interpolants. -/
theorem piecewiseLinear_combination [LinearOrder K] [FloorSemiring K] (a b : K) (f g : ℕ → K)
    (x : K) :
  piecewiseLinear (fun i => a * f i + b * g i) x
    = a * piecewiseLinear f x + b * piecewiseLinear g x
  := by
  rw [piecewiseLinear, piecewiseLinear, piecewiseLinear]
  ring

end Combination

/-! ### Lines -/

/-- A position is one of the indices below `n`, or between two of them. -/
theorem position_cases [LinearOrder K] [IsStrictOrderedRing K] [FloorSemiring K] {n : ℕ}
    (hn : 0 < n) {x : K} (h₀ : 0 ≤ x) (h₁ : x ≤ (n - 1 : ℕ)) :
  (∃ q : ℕ, q < n ∧ x = q) ∨ ∃ q : ℕ, q + 1 < n ∧ (q : K) ≤ x ∧ x < q + 1
  := by
  have hlo := Nat.floor_le h₀
  have hhi := Nat.lt_floor_add_one x
  obtain heq | hlt := hlo.eq_or_lt
  · left
    refine ⟨⌊x⌋₊, ?_, heq.symm⟩
    rw [← heq, Nat.cast_le] at h₁
    omega
  · right
    refine ⟨⌊x⌋₊, ?_, hlo, hhi⟩
    have hlt' := hlt.trans_le h₁
    rw [Nat.cast_lt] at hlt'
    omega

section Lines

variable [LinearOrder K] [IsStrictOrderedRing K] {a b : K}

/-- The gaps of a line that has values at its ends are filled with the line. -/
theorem fillGaps_of_line {v : ℕ → Option K} {n : ℕ} (hold : K)
    (hv : ∀ i y, i < n → v i = some y → y = a + b * i) (hfirst : v 0 ≠ none)
    (hlast : v (n - 1) ≠ none) {i : ℕ} (hi : i < n) :
  fillGaps v n hold i = a + b * i
  := by
  rw [fillGaps]
  cases hb : nearestBelow v i with
  | none => apply absurd (eq_none_of_nearestBelow hb (Nat.zero_le i)) hfirst
  | some p =>
      cases ha : nearestAbove v i (n - i) with
      | none => apply absurd (eq_none_of_nearestAbove ha (by omega) (by omega)) hlast
      | some q =>
          obtain ⟨l, y₀⟩ := p
          obtain ⟨r, y₁⟩ := q
          obtain ⟨hle, hl, -⟩ := nearestBelow_spec hb
          obtain ⟨hge, hlt, hr, -⟩ := nearestAbove_spec ha
          simp only [hv l y₀ (by omega) hl, hv r y₁ (by omega) hr]
          obtain rfl | hlt := Nat.eq_or_lt_of_le (hle.trans hge)
          · obtain rfl := le_antisymm hle hge
            simp
          · have hne : ((r : K) - l) ≠ 0 := by
              rw [sub_ne_zero, ne_eq, Nat.cast_inj]
              omega
            rw [Nat.cast_sub hle, Nat.cast_sub hlt.le]
            field_simp
            ring

/-- The interpolant of a line is the line. -/
theorem piecewiseLinear_of_line [FloorSemiring K] {f : ℕ → K} {n : ℕ}
    (hf : ∀ i, i < n → f i = a + b * i) (hn : 0 < n) {x : K} (h₀ : 0 ≤ x)
    (h₁ : x ≤ (n - 1 : ℕ)) :
  piecewiseLinear f x = a + b * x
  := by
  obtain ⟨q, hq, rfl⟩ | ⟨q, hq, hlo, hhi⟩ := position_cases hn h₀ h₁
  · rw [piecewiseLinear_natCast, hf q hq]
  · rw [piecewiseLinear_of_mem f hlo hhi, hf q (by omega), hf (q + 1) hq]
    push_cast
    ring

end Lines

/-- The interpolant of values in an interval is in the interval. -/
theorem piecewiseLinear_mem [LinearOrder K] [IsStrictOrderedRing K] [FloorSemiring K] {f : ℕ → K}
    {n : ℕ} {lo hi : K} (hf : ∀ i, i < n → lo ≤ f i ∧ f i ≤ hi) (hn : 0 < n) {x : K} (h₀ : 0 ≤ x)
    (h₁ : x ≤ (n - 1 : ℕ)) :
  lo ≤ piecewiseLinear f x ∧ piecewiseLinear f x ≤ hi
  := by
  obtain ⟨q, hq, rfl⟩ | ⟨q, hq, hlo, hhi⟩ := position_cases hn h₀ h₁
  · rw [piecewiseLinear_natCast]
    apply hf q hq
  · rw [piecewiseLinear_of_mem f hlo hhi]
    apply lerp_mem (hf q (by omega)) (hf (q + 1) hq)
    constructor <;> linarith
