import PipeAI.Numeric.Interpolation

/-!
# Interpolation through points

`interp points x` is the value at `x` of the polygon through points with increasing first
coordinates, which goes on horizontally at both ends.

`knots pos v n` are the points `(pos i, y)` for the indices `i` below `n` at which the sequence `v`
has a value `y`.  The value of their polygon depends on the nearest points on both sides only
(`interp_knots_between`).  So interpolation at an index fills the gaps of the sequence
(`interp_knots_natCast`), and interpolation through equidistant points is the piecewise-linear
interpolant, scaled (`interp_knots_div`).
-/

universe u

variable {K : Type u} [Field K] [LinearOrder K]

/-- The value at `x` of the polygon through the points. -/
def interp : List (K × K) → K → K
  | [], _ => 0
  | [p], _ => p.2
  | p :: q :: points, x =>
      if x ≤ p.1 then p.2
      else if x < q.1 then (q.2 - p.2) / (q.1 - p.1) * (x - p.1) + p.2
      else interp (q :: points) x

/-- The points of a sequence that has values at some of the given indices. -/
def knotsAt (pos : ℕ → K) (v : ℕ → Option K) (is : List ℕ) : List (K × K) :=
  is.filterMap (fun i => (v i).map (fun y => (pos i, y)))

/-- The points of a sequence that has values at some of the indices below `n`. -/
def knots (pos : ℕ → K) (v : ℕ → Option K) (n : ℕ) : List (K × K) :=
  knotsAt pos v (List.range n)

/-! ### The polygon -/

/-- Up to the first point the polygon has its value. -/
theorem interp_of_le_first {p : K × K} {x : K} (h : x ≤ p.1) (points : List (K × K)) :
  interp (p :: points) x = p.2
  := by
  rcases points with _ | ⟨q, points⟩
  · rfl
  · rw [interp, if_pos h]

/-- From a point on, the points before it do not matter. -/
theorem interp_append {before points : List (K × K)} {p : K × K} {x : K}
    (hbefore : ∀ q ∈ before, q.1 < p.1) (hsorted : before.Pairwise (fun q r => q.1 < r.1))
    (h : p.1 ≤ x) :
  interp (before ++ p :: points) x = interp (p :: points) x
  := by
  induction before with
  | nil => rfl
  | cons q before ih =>
      rw [List.pairwise_cons] at hsorted
      rw [List.forall_mem_cons] at hbefore
      have hrest := ih hbefore.2 hsorted.2
      rcases before with _ | ⟨r, before⟩
      · rw [List.cons_append, List.nil_append, interp, if_neg (not_le.mpr (hbefore.1.trans_le h)),
          if_neg (not_lt.mpr h)]
      · have hr : r.1 ≤ x := (hbefore.2 r (by simp)).le.trans h
        rw [List.cons_append, List.cons_append, interp,
          if_neg (not_le.mpr (hbefore.1.trans_le h)), if_neg (not_lt.mpr hr)]
        apply hrest

/-- Between two points that follow each other the polygon is the line through them. -/
theorem interp_cons_cons [IsStrictOrderedRing K] {p q : K × K} {x : K} (hp : p.1 ≤ x)
    (hq : x ≤ q.1) (hpq : p.1 < q.1) (points : List (K × K)) :
  interp (p :: q :: points) x = p.2 + (q.2 - p.2) * ((x - p.1) / (q.1 - p.1))
  := by
  have hne : q.1 - p.1 ≠ 0 := by
    rw [sub_ne_zero]
    apply hpq.ne'
  rw [interp]
  split
  · rename_i hle
    rw [le_antisymm hle hp]
    simp
  · split
    · ring
    · rename_i hnot
      obtain rfl : x = q.1 := le_antisymm hq (not_lt.mp hnot)
      rw [interp_of_le_first le_rfl, div_self hne]
      ring

/-! ### The points of a sequence -/

section Knots

variable {pos : ℕ → K} {v : ℕ → Option K} {n : ℕ}

omit [Field K] [LinearOrder K] in
/-- There are no points where the sequence has no values. -/
theorem knotsAt_eq_nil {is : List ℕ} (h : ∀ i ∈ is, v i = none) :
  knotsAt pos v is = []
  := by
  rw [knotsAt, List.filterMap_eq_nil_iff]
  intro i hi
  rw [h i hi, Option.map_none]

omit [Field K] [LinearOrder K] in
/-- The points before an index with a value, the point there, and the points after it. -/
theorem knots_eq_append {l : ℕ} (hl : l < n) {y : K} (hv : v l = some y) :
  knots pos v n = knots pos v l ++ (pos l, y) :: knotsAt pos v (List.range' (l + 1) (n - (l + 1)))
  := by
  have hrange : List.range n = List.range l ++ l :: List.range' (l + 1) (n - (l + 1)) := by
    rw [List.range_eq_range', List.range_eq_range', (by omega : n = l + (1 + (n - (l + 1)))),
      ← List.range'_append_1, Nat.zero_add]
    congr 1
    rw [Nat.add_comm 1, List.range'_succ]
    congr 2
    omega
  rw [knots, knotsAt, hrange, List.filterMap_append, List.filterMap_cons, hv]
  rfl

/-- The positions increase. -/
def Increases (pos : ℕ → K) (n : ℕ) : Prop :=
  ∀ i j, i < j → j < n → pos i < pos j

omit [Field K] in
/-- The points before an index come before it. -/
theorem knots_before (hpos : Increases pos n) {l : ℕ} (hl : l < n) :
  (∀ q ∈ knots pos v l, q.1 < pos l) ∧ (knots pos v l).Pairwise (fun q r => q.1 < r.1)
  := by
  constructor
  · intro q hq
    obtain ⟨i, hi, hiq⟩ := List.mem_filterMap.mp hq
    obtain ⟨y, -, rfl⟩ := Option.map_eq_some_iff.mp hiq
    apply hpos i l (List.mem_range.mp hi) hl
  · rw [knots, knotsAt, List.pairwise_filterMap]
    apply List.pairwise_lt_range.imp_of_mem
    intro i j hi hj hij q hq r hr
    obtain ⟨y, -, rfl⟩ := Option.map_eq_some_iff.mp hq
    obtain ⟨z, -, rfl⟩ := Option.map_eq_some_iff.mp hr
    apply hpos i j hij ((List.mem_range.mp hj).trans hl)

/-- At a value, the polygon has this value. -/
theorem interp_knots_of_some (hpos : Increases pos n) {l : ℕ} {y : K} (hl : l < n)
    (hv : v l = some y) :
  interp (knots pos v n) (pos l) = y
  := by
  obtain ⟨hbefore, hsorted⟩ := knots_before (v := v) hpos hl
  rw [knots_eq_append hl hv, interp_append hbefore hsorted le_rfl]
  apply interp_of_le_first le_rfl

/-- Up to the first value, the polygon has this value. -/
theorem interp_knots_of_le_first {r : ℕ} {y x : K} (hr : r < n) (hv : v r = some y)
    (hgap : ∀ k, k < r → v k = none) (h : x ≤ pos r) :
  interp (knots pos v n) x = y
  := by
  have hnil : knots pos v r = [] := by
    apply knotsAt_eq_nil
    intro k hk
    apply hgap k (List.mem_range.mp hk)
  rw [knots_eq_append hr hv, hnil, List.nil_append]
  apply interp_of_le_first h

/-- From the last value on, the polygon has this value. -/
theorem interp_knots_of_last_le (hpos : Increases pos n) {l : ℕ} {y x : K} (hl : l < n)
    (hv : v l = some y) (hgap : ∀ k, l < k → k < n → v k = none) (h : pos l ≤ x) :
  interp (knots pos v n) x = y
  := by
  obtain ⟨hbefore, hsorted⟩ := knots_before (v := v) hpos hl
  rw [knots_eq_append hl hv, interp_append hbefore hsorted h, knotsAt_eq_nil]
  · rfl
  · intro k hk
    rw [List.mem_range'_1] at hk
    apply hgap k (by omega) (by omega)

variable [IsStrictOrderedRing K]

/-- Between two values, without a value between, the polygon is a line. -/
theorem interp_knots_between (hpos : Increases pos n) {l r : ℕ} {y₀ y₁ x : K} (hlr : l < r)
    (hr : r < n) (hl : v l = some y₀) (hvr : v r = some y₁)
    (hgap : ∀ k, l < k → k < r → v k = none) (hlo : pos l ≤ x) (hhi : x ≤ pos r) :
  interp (knots pos v n) x = y₀ + (y₁ - y₀) * ((x - pos l) / (pos r - pos l))
  := by
  obtain ⟨hbefore, hsorted⟩ := knots_before (v := v) hpos (hlr.trans hr)
  have hrange : List.range' (l + 1) (n - (l + 1))
      = List.range' (l + 1) (r - (l + 1)) ++ r :: List.range' (r + 1) (n - (r + 1)) := by
    rw [(by omega : n - (l + 1) = r - (l + 1) + (1 + (n - (r + 1)))), ← List.range'_append_1]
    congr 1
    rw [Nat.add_comm 1, List.range'_succ, (by omega : l + 1 + (r - (l + 1)) = r)]
  have hnil : knotsAt pos v (List.range' (l + 1) (r - (l + 1))) = [] := by
    apply knotsAt_eq_nil
    intro k hk
    rw [List.mem_range'_1] at hk
    apply hgap k (by omega) (by omega)
  have hafter : knotsAt pos v (List.range' (l + 1) (n - (l + 1)))
      = (pos r, y₁) :: knotsAt pos v (List.range' (r + 1) (n - (r + 1))) := by
    rw [knotsAt, hrange, List.filterMap_append, List.filterMap_cons, hvr, ← knotsAt, hnil]
    rfl
  rw [knots_eq_append (hlr.trans hr) hl, interp_append hbefore hsorted hlo, hafter]
  apply interp_cons_cons hlo hhi (hpos l r hlr hr)

/-- Interpolation at an index, through the values at the others, fills the gaps. -/
theorem interp_knots_natCast (hold : K) {i : ℕ} (hi : i < n) (hsome : ∃ k, k < n ∧ v k ≠ none) :
  interp (knots (fun i => (i : K)) v n) (i : K) = fillGaps v n hold i
  := by
  have hpos : Increases (fun i => (i : K)) n := fun i j hij _ => Nat.cast_lt.mpr hij
  rw [fillGaps]
  rcases hb : nearestBelow v i with _ | ⟨l, y₀⟩
  · rcases ha : nearestAbove v i (n - i) with _ | ⟨r, y₁⟩
    · obtain ⟨k, hk, hne⟩ := hsome
      rcases Nat.lt_or_ge k i with hki | hik
      · apply absurd (eq_none_of_nearestBelow hb hki.le) hne
      · apply absurd (eq_none_of_nearestAbove ha hik (by omega)) hne
    · obtain ⟨hge, hlt, hr, hgap⟩ := nearestAbove_spec ha
      apply interp_knots_of_le_first (by omega) hr _ (Nat.cast_le.mpr hge)
      intro k hk
      rcases Nat.lt_or_ge k i with hki | hik
      · apply eq_none_of_nearestBelow hb hki.le
      · apply hgap k hik hk
  · obtain ⟨hle, hl, hgap⟩ := nearestBelow_spec hb
    rcases ha : nearestAbove v i (n - i) with _ | ⟨r, y₁⟩
    · apply interp_knots_of_last_le hpos (by omega) hl _ (Nat.cast_le.mpr hle)
      intro k hk hkn
      rcases Nat.lt_or_ge i k with hik | hki
      · apply eq_none_of_nearestAbove ha hik.le (by omega)
      · apply hgap k hk hki
    · obtain ⟨hge, hlt, hr, hgap'⟩ := nearestAbove_spec ha
      rcases (hle.trans hge).eq_or_lt with rfl | hlr
      · obtain rfl : i = l := by omega
        rw [hl, Option.some.injEq] at hr
        rw [interp_knots_of_some hpos hi hl, hr]
        simp
      · dsimp only
        rw [Nat.cast_sub hle, Nat.cast_sub hlr.le]
        apply interp_knots_between hpos hlr (by omega) hl hr _ (Nat.cast_le.mpr hle)
          (Nat.cast_le.mpr hge)
        intro k hk hkr
        rcases Nat.lt_or_ge i k with hik | hki
        · apply hgap' k hik.le hkr
        · apply hgap k hk hki

/-- Interpolation through equidistant points is the piecewise-linear interpolant. -/
theorem interp_knots_div [FloorSemiring K] (f : ℕ → K) (hn : 0 < n) {x : K} (h₀ : 0 ≤ x)
    (h₁ : x ≤ 1) :
  interp (knots (fun i => (i : K) / (n - 1 : ℕ)) (fun i => some (f i)) n) x
    = piecewiseLinear f (x * (n - 1 : ℕ))
  := by
  have hd : (0 : K) ≤ (n - 1 : ℕ) := Nat.cast_nonneg _
  have hx : x * (n - 1 : ℕ) ≤ (n - 1 : ℕ) := mul_le_of_le_one_left hd h₁
  rcases Nat.eq_or_lt_of_le (Nat.succ_le_of_lt hn) with rfl | hlt
  · have hzero := piecewiseLinear_natCast f 0
    simp only [Nat.cast_zero] at hzero
    simp [knots, knotsAt, interp, hzero]
  · have hd' : (0 : K) < (n - 1 : ℕ) := by
      rw [Nat.cast_pos]
      omega
    have hpos : Increases (fun i => (i : K) / (n - 1 : ℕ)) n := by
      intro i j hij _
      apply div_lt_div_of_pos_right (Nat.cast_lt.mpr hij) hd'
    obtain ⟨q, hq, heq⟩ | ⟨q, hq, hlo, hhi⟩ := position_cases hn (mul_nonneg h₀ hd) hx
    · have hxq : x = (q : K) / (n - 1 : ℕ) := eq_div_of_mul_eq hd'.ne' heq
      rw [heq, piecewiseLinear_natCast, hxq]
      apply interp_knots_of_some hpos hq rfl
    · rw [piecewiseLinear_of_mem f hlo hhi,
        interp_knots_between (v := fun i => some (f i)) hpos (Nat.lt_succ_self q) hq rfl rfl
          (by omega)]
      · push_cast
        field_simp
        ring
      · rw [div_le_iff₀ hd']
        apply hlo
      · rw [le_div_iff₀ hd']
        push_cast
        apply hhi.le

end Knots
