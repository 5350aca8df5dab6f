import PipeAI.Numeric.Shares
import PipeAI.Postprocess.Classifier
import Mathlib.Analysis.SpecialFunctions.Exp

/-!
# Classification over the real numbers

With the exponential function on the real numbers, the probabilities of a result with real logits
are the shares of the exponentials of the logits, from each of which the largest one has been
subtracted.  So they are in the order of the logits, the class is the first one with the largest
logit, and the same constant added to all logits changes neither (`Classifier.classify_real`).
-/

/-! ### The first largest element -/

/-- Of indices in increasing order, the loop of `std::max_element` chooses the first one with a
largest value. -/
theorem foldl_largest {K : Type} [LinearOrder K] {n : ℕ} (x : Fin n → K) (l : List (Fin n))
    (a : Fin n) (hl : (a :: l).Pairwise (fun i j => i < j)) :
  ∃ c ∈ a :: l,
    l.foldl (fun largest it =>
      if (Flt.fin (x largest)).lt (.fin (x it)) then it else largest) a = c
    ∧ ∀ i ∈ a :: l, x i ≤ x c ∧ (i < c → x i < x c)
  := by
  induction l generalizing a with
  | nil => exact ⟨a, by simp, rfl, by simp⟩
  | cons b l ih =>
      rw [List.pairwise_cons] at hl
      obtain ⟨ha, hbl⟩ := hl
      have hb := List.pairwise_cons.mp hbl
      rw [List.foldl_cons, Flt.lt_fin]
      by_cases hlt : x a < x b
      · rw [if_pos (by simpa using hlt)]
        obtain ⟨c, hc, hfold, hmax⟩ := ih b hbl
        refine ⟨c, List.mem_cons_of_mem a hc, hfold, ?_⟩
        have hac : x a < x c := lt_of_lt_of_le hlt (hmax b (by simp)).1
        intro i hi
        rcases List.mem_cons.mp hi with rfl | hi
        · exact ⟨hac.le, fun _ => hac⟩
        · apply hmax i hi
      · rw [if_neg (by simpa using hlt)]
        have hal : (a :: l).Pairwise (fun i j => i < j) := by
          rw [List.pairwise_cons]
          exact ⟨fun j hj => ha j (List.mem_cons_of_mem b hj), hb.2⟩
        obtain ⟨c, hc, hfold, hmax⟩ := ih a hal
        refine ⟨c, ?_, hfold, ?_⟩
        · rcases List.mem_cons.mp hc with rfl | hc
          · simp
          · simp [hc]
        · have hba : x b ≤ x a := not_lt.mp hlt
          have hac := hmax a (by simp)
          intro i hi
          rcases List.mem_cons.mp hi with rfl | hi
          · apply hac
          · rcases List.mem_cons.mp hi with rfl | hi
            · use hba.trans hac.1
              intro hic
              rcases List.mem_cons.mp hc with rfl | hc
              · apply absurd (ha i (by simp)) (not_lt.mpr hic.le)
              · apply lt_of_le_of_lt hba
                apply hac.2
                apply ha c (List.mem_cons_of_mem i hc)
            · apply hmax i (List.mem_cons_of_mem a hi)

/-- `std::max_element` finds the first one of the largest elements. -/
theorem maxElement_fin {K : Type} [LinearOrder K] (x : Fin kClassCount → K)
    (i : Fin kClassCount) :
  x i ≤ x (maxElement (fun i => .fin (x i)))
    ∧ (i < maxElement (fun i => .fin (x i)) → x i < x (maxElement (fun i => .fin (x i))))
  := by
  obtain ⟨c, -, hfold, hmax⟩ := foldl_largest x (List.finRange kClassCount).tail ⟨0, by decide⟩
    (List.pairwise_lt_finRange kClassCount)
  obtain rfl : maxElement (fun i => .fin (x i)) = c := hfold
  apply hmax i (List.mem_finRange i)

/-! ### The probabilities -/

variable {K : Type} [Field K]

/-- The sum of finite values is that of the elements of the field. -/
theorem foldl_fin_add {ι : Type} (w : ι → K) (l : List ι) (a : K) :
  l.foldl (fun s i => s + Flt.fin (w i)) (.fin a) = .fin (a + (l.map w).sum)
  := by
  induction l generalizing a with
  | nil => simp
  | cons i l ih => rw [List.foldl_cons, Flt.fin_add, ih, List.map_cons, List.sum_cons, add_assoc]

variable [LinearOrder K]

/-- The exponentials of the logits from which the largest one has been subtracted. -/
def weight (e : K → K) (x : Fin kClassCount → K) (i : Fin kClassCount) : K :=
  e (x i - x (maxElement (fun i => .fin (x i))))

/-- The weights do not change with a constant added to all logits. -/
theorem weight_add [IsStrictOrderedRing K] (e : K → K) (x : Fin kClassCount → K) (a : K) :
  weight e (fun i => x i + a) = weight e x
  := by
  have hmax : x (maxElement (fun i => .fin (x i + a))) = x (maxElement (fun i => .fin (x i))) := by
    apply le_antisymm
    · apply (maxElement_fin x _).1
    · have hle := (maxElement_fin (fun i => x i + a) (maxElement (fun i => .fin (x i)))).1
      apply le_of_add_le_add_right hle
  funext i
  rw [weight, weight, hmax, add_sub_add_right_eq_sub]

/-- Where the logits are zero, the confidence is that of `kClassCount` equal probabilities. -/
theorem Classifier.confidence_of_zero [IsStrictOrderedRing K] {exp : Flt K → Flt K}
    (hexp : exp (.fin 0) = .fin 1) {r : InferenceResult K} (h : ∀ i, r.logits i = .fin 0) :
  (classify exp r).confidence = .fin (1 / (kClassCount : K))
  := by
  have hsum : (List.finRange kClassCount).foldl (fun s _ => s + Flt.fin (1 : K)) (.fin 0)
      = .fin (kClassCount : K) := by
    rw [foldl_fin_add]
    simp
  have hpos : (0 : K) < kClassCount := Nat.cast_pos.mpr (by decide)
  have hlt : Flt.lt (.fin 0) (.fin (kClassCount : K)) := by simpa using hpos
  simp only [classify, Softmax.apply, h, Flt.fin_sub, sub_self, hexp, hsum]
  rw [if_pos hlt, Flt.fin_div _ hpos.ne']

section Exponential

variable [IsStrictOrderedRing K] {exp : Flt K → Flt K} {e : K → K} (hpos : ∀ x, 0 < e x)

include hpos

/-- The probabilities are in the order of the logits. -/
theorem share_weight_lt_iff (hmono : StrictMono e) (x : Fin kClassCount → K)
    (i j : Fin kClassCount) :
  share (weight e x) i < share (weight e x) j ↔ x i < x j
  := by
  have hweight : ∀ i, 0 < weight e x i := fun _ => hpos _
  rw [share_lt_share_iff hweight, weight, weight, hmono.lt_iff_lt, sub_lt_sub_iff_right]

variable (hexp : ∀ x, exp (.fin x) = .fin (e x))

include hexp

/-- The probabilities are the shares of the weights. -/
theorem Softmax.apply_fin (x : Fin kClassCount → K) :
  Softmax.apply exp (fun i => .fin (x i)) = fun i => .fin (share (weight e x) i)
  := by
  have : Nonempty (Fin kClassCount) := ⟨⟨0, by decide⟩⟩
  have hsumpos : 0 < ∑ i, weight e x i := sum_weights_pos (fun _ => hpos _)
  have hp : ∀ i, exp (Flt.fin (x i) - Flt.fin (x (maxElement (fun i => .fin (x i)))))
      = .fin (weight e x i) := by
    intro i
    rw [Flt.fin_sub, hexp, weight]
  have hsum : (List.finRange kClassCount).foldl (fun s i => s + Flt.fin (weight e x i)) (.fin 0)
      = .fin (∑ i, weight e x i) := by
    rw [foldl_fin_add, zero_add, Fin.sum_univ_def]
  rw [Softmax.apply]
  simp only [hp, hsum]
  rw [if_pos (by simpa using hsumpos)]
  funext i
  rw [Flt.fin_div _ hsumpos.ne', share]

/-- The classification of a result with finite logits. -/
theorem Classifier.classify_fin (r : InferenceResult K) (x : Fin kClassCount → K) :
  Classifier.classify exp { r with logits := fun i => .fin (x i) }
    = { r with
        logits := fun i => .fin (x i)
        probabilities := fun i => .fin (share (weight e x) i)
        class_id := ((maxElement (fun i => .fin (share (weight e x) i)) : Fin kClassCount) : ℕ)
        confidence :=
          .fin (share (weight e x) (maxElement (fun i => .fin (share (weight e x) i)))) }
  := by
  rw [Classifier.classify]
  simp only [Softmax.apply_fin hpos hexp]

end Exponential

/-! ### The decision -/

/-- The exponential function on floating-point values over the real numbers. -/
noncomputable def expReal : Flt ℝ → Flt ℝ
  | .fin x => .fin (Real.exp x)
  | .nan => .nan
  | .posInf => .posInf
  | .negInf => .fin 0

/-- A result with real logits, whatever else it holds, is classified by the softmax of the logits:
the probabilities are positive, sum up to 1 and are in the order of the logits; the class is the
first one with the largest logit, and the confidence is its probability, which is at least that of
equal probabilities; everything else stays; and neither the probabilities nor the class change
with a constant added to all logits. -/
theorem Classifier.classify_real (r : InferenceResult ℝ) (x : Fin kClassCount → ℝ) :
  ∃ (p : Fin kClassCount → ℝ) (c : Fin kClassCount),
    Classifier.classify expReal { r with logits := fun i => .fin (x i) }
      = { r with
          logits := fun i => .fin (x i)
          probabilities := fun i => .fin (p i)
          class_id := (c : ℕ)
          confidence := .fin (p c) }
    ∧ (∀ i, 0 < p i) ∧ ∑ i, p i = 1
    ∧ (∀ i j, p i < p j ↔ x i < x j)
    ∧ (∀ i, x i ≤ x c) ∧ (∀ i, i < c → x i < x c)
    ∧ 1 / (kClassCount : ℝ) ≤ p c
    ∧ ∀ a, (Classifier.classify expReal { r with logits := fun i => .fin (x i + a) }).probabilities
        = (fun i => .fin (p i))
      ∧ (Classifier.classify expReal { r with logits := fun i => .fin (x i + a) }).class_id = c
  := by
  have hexp : ∀ x, expReal (.fin x) = .fin (Real.exp x) := fun _ => rfl
  have : Nonempty (Fin kClassCount) := ⟨⟨0, by decide⟩⟩
  have horder := share_weight_lt_iff Real.exp_pos Real.exp_strictMono x
  have hmax := maxElement_fin (share (weight Real.exp x))
  have hle : ∀ i, x i ≤ x (maxElement (fun i => .fin (share (weight Real.exp x) i))) := by
    intro i
    rw [← not_lt, ← horder, not_lt]
    apply (hmax i).1
  refine ⟨share (weight Real.exp x), _, classify_fin Real.exp_pos hexp r x,
    share_pos (fun _ => Real.exp_pos _), sum_share (fun _ => Real.exp_pos _), horder, hle, ?_, ?_,
    ?_⟩
  · intro i hi
    rw [← horder]
    apply (hmax i).2 hi
  · have hcard := inv_card_le_share (fun _ => Real.exp_pos _) (fun i => (hmax i).1)
    rw [Fintype.card_fin] at hcard
    apply hcard
  · intro a
    rw [classify_fin Real.exp_pos hexp r (fun i => x i + a), weight_add]
    exact ⟨rfl, rfl⟩
