import PipeAI.Algorithm.Network
import PipeAI.Postprocess.SoftmaxDecision
import PipeAI.Preprocess.Stability

/-!
# From recordings to classes

The preprocessor, the network and the classifier, one after the other.  A class that is ahead of the
others by a margin, given by the parameters of the network, stays when the values of the recording
are disturbed (`class_of_close`).
-/

open Layers NetTraining

instance : Nonempty (Fin kClassCount) :=
  ⟨⟨0, by decide⟩⟩

/-- `std::max_element` finds the first one of the largest elements. -/
theorem maxElement_eq_argmax (x : Fin kClassCount → ℝ) :
  maxElement (fun i => .fin (x i)) = argmax x
  := by
  have hmax := maxElement_fin x
  symm
  apply argmax_eq
  · intro i
    apply (hmax i).1
  · intro i hi
    apply (hmax i).2 hi

/-- The class of real logits is the first one with the largest logit. -/
theorem Classifier.class_id_real (r : InferenceResult ℝ) (x : Fin kClassCount → ℝ) :
  (classify expReal { r with logits := fun i => .fin (x i) }).class_id
    = ((argmax x : Fin kClassCount) : ℕ)
  := by
  have hexp : ∀ x, expReal (.fin x) = .fin (Real.exp x) := fun _ => rfl
  have horder := share_weight_lt_iff Real.exp_pos Real.exp_strictMono x
  have hargmax : argmax x = argmax (share (weight Real.exp x)) := by
    apply argmax_eq
    · intro i
      rw [← not_lt, ← horder, not_lt]
      apply le_argmax
    · intro i hi
      rw [← horder]
      apply lt_argmax hi
  rw [classify_fin Real.exp_pos hexp r x, maxElement_eq_argmax, hargmax]

namespace Preprocessor

/-- In exact arithmetic the tensor holds a window of real numbers, those of the reference. -/
theorem exists_window (sensor_min : ℝ) {samples : List (RawSample ℝ)} (h : samples ≠ [])
    (output : ModelInput ℝ) (report : Option PreprocessReport) :
  ∃ x r, ∃ X : Window ℝ (127 + 1),
    run (Rounding.exact ℝ) ⟨.fin sensor_min⟩ samples output report = some (.success, x, r)
      ∧ (∀ t c, x.get t c = .fin (X t c))
      ∧ (∀ t ch, X t (radarColumn ch) = repairAndResample sensor_min samples ch t)
      ∧ ∀ t, X t imuColumn = sanitizeAndResample samples t
  := by
  obtain ⟨x, hx, hrows⟩ := run_exact sensor_min h output report
  have hfin : ∀ t c, ∃ a, x.get t c = .fin a := by
    intro t c
    rcases column_cases c with ⟨ch, rfl⟩ | rfl
    · exact ⟨_, (hrows t).1 ch⟩
    · exact ⟨_, (hrows t).2⟩
  choose X hX using hfin
  refine ⟨x, _, X, hx, hX, ?_, ?_⟩
  · intro t ch
    have hget := (hX t (radarColumn ch)).symm.trans ((hrows t).1 ch)
    rw [Flt.fin.injEq] at hget
    apply hget
  · intro t
    have hget := (hX t imuColumn).symm.trans (hrows t).2
    rw [Flt.fin.injEq] at hget
    apply hget

/-- The windows of samples that are close. -/
theorem exists_close_windows (sensor_min : ℝ) {ε : ℝ} (hε : 0 ≤ ε)
    {samples samples' : List (RawSample ℝ)} (h : samples ≠ [])
    (hclose : List.Forall₂ (Close ε) samples samples') (output output' : ModelInput ℝ)
    (report report' : Option PreprocessReport) :
  ∃ x y a b, ∃ X Y : Window ℝ (127 + 1),
    run (Rounding.exact ℝ) ⟨.fin sensor_min⟩ samples output report = some (.success, x, a)
      ∧ run (Rounding.exact ℝ) ⟨.fin sensor_min⟩ samples' output' report' = some (.success, y, b)
      ∧ (∀ t c, x.get t c = .fin (X t c)) ∧ (∀ t c, y.get t c = .fin (Y t c))
      ∧ ∀ t c, |X t c - Y t c| ≤ 34 / 21 * ε
  := by
  obtain ⟨x, a, X, hx, hX, hradar, himu⟩ := exists_window sensor_min h output report
  obtain ⟨y, b, Y, hy, hY, hradar', himu'⟩ :=
    exists_window sensor_min (ne_nil_of_close h hclose) output' report'
  refine ⟨x, y, a, b, X, Y, hx, hy, hX, hY, ?_⟩
  intro t c
  rcases column_cases c with ⟨ch, rfl⟩ | rfl
  · rw [hradar, hradar']
    apply abs_repairAndResample_sub_le hε sensor_min h hclose
  · rw [himu, himu']
    apply (abs_sanitizeAndResample_sub_le hε h hclose t).trans
    linarith

end Preprocessor

/-- Two recordings with missing values in the same places, and valid values that are at most `ε`
apart, are given the same class when it is ahead of the others on one of them by more than twice
`34/21 * ε` times the gain of the network. -/
theorem class_of_close {cfg : Config ℝ} (net : End2EndPipeNet ℝ cfg kClassCount) (sensor_min : ℝ)
    {ε : ℝ} (hε : 0 ≤ ε) {samples samples' : List (RawSample ℝ)} (h : samples ≠ [])
    (hclose : List.Forall₂ (Preprocessor.Close ε) samples samples') (output output' : ModelInput ℝ)
    (report report' : Option PreprocessReport) (r r' : InferenceResult ℝ) :
  ∃ x y a b, ∃ X Y : Window ℝ (127 + 1),
    Preprocessor.run (Rounding.exact ℝ) ⟨.fin sensor_min⟩ samples output report
        = some (.success, x, a)
      ∧ Preprocessor.run (Rounding.exact ℝ) ⟨.fin sensor_min⟩ samples' output' report'
        = some (.success, y, b)
      ∧ (∀ t c, x.get t c = .fin (X t c)) ∧ (∀ t c, y.get t c = .fin (Y t c))
      ∧ ∀ k : Fin kClassCount, (∀ l, l ≠ k →
            net.windowLogits Functions.real X l + 2 * (net.gain Functions.real * (34 / 21 * ε))
              < net.windowLogits Functions.real X k) →
          (Classifier.classify expReal { r with
              logits := fun i => .fin (net.windowLogits Functions.real X i) }).class_id = (k : ℕ)
            ∧ (Classifier.classify expReal { r' with
              logits := fun i => .fin (net.windowLogits Functions.real Y i) }).class_id = (k : ℕ)
  := by
  obtain ⟨x, y, a, b, X, Y, hx, hy, hX, hY, hle⟩ :=
    Preprocessor.exists_close_windows sensor_min hε h hclose output output' report report'
  refine ⟨x, y, a, b, X, Y, hx, hy, hX, hY, ?_⟩
  intro k hk
  have hlogits := net.abs_forward_sub_le (x := fun _ : Fin 1 => X) (y := fun _ : Fin 1 => Y)
    (n := 0) (m := 0) hle
  obtain ⟨hargmax, hargmax'⟩ := argmax_eq_of_margin hlogits hk
  rw [Classifier.class_id_real, Classifier.class_id_real, End2EndPipeNet.windowLogits,
    End2EndPipeNet.windowLogits, hargmax, hargmax']
  exact ⟨rfl, rfl⟩

/-- The theorem at eight samples that are disturbed, with missing values, and a network that prefers
the third class. -/
theorem class_of_close_disturbed :
  ∃ net : End2EndPipeNet ℝ Config.default kClassCount, 0 < net.gain Functions.real
    ∧ ∃ x y a b, ∃ X Y : Window ℝ (127 + 1),
      Preprocessor.run (Rounding.exact ℝ) ⟨.fin 150⟩ (Preprocessor.disturbed 0) (ModelInput.zero ℝ)
          none = some (.success, x, a)
        ∧ Preprocessor.run (Rounding.exact ℝ) ⟨.fin 150⟩ (Preprocessor.disturbed 1)
          (ModelInput.zero ℝ) none = some (.success, y, b)
        ∧ (∀ t c, x.get t c = .fin (X t c)) ∧ (∀ t c, y.get t c = .fin (Y t c))
        ∧ (Classifier.classify expReal { InferenceResult.default ℝ with
            logits := fun i => .fin (net.windowLogits Functions.real X i) }).class_id = 2
        ∧ (Classifier.classify expReal { InferenceResult.default ℝ with
            logits := fun i => .fin (net.windowLogits Functions.real Y i) }).class_id = 2
  := by
  let k : Fin kClassCount := ⟨2, by decide⟩
  let net : End2EndPipeNet ℝ Config.default kClassCount := .preferring _ k (2 * (34 / 21))
  have hne : (Preprocessor.disturbed 0 : List (RawSample ℝ)) ≠ [] := List.cons_ne_nil _ _
  have hclose := Preprocessor.close_disturbed (zero_le_one (α := ℝ)) (by norm_num)
  obtain ⟨x, y, a, b, X, Y, hx, hy, hX, hY, hclass⟩ :=
    class_of_close net 150 zero_le_one hne hclose (ModelInput.zero ℝ) (ModelInput.zero ℝ) none none
      (InferenceResult.default ℝ) (InferenceResult.default ℝ)
  refine ⟨net, End2EndPipeNet.gain_preferring_pos k _, x, y, a, b, X, Y, hx, hy, hX, hY,
    hclass k ?_⟩
  intro l hl
  have hscale : 2 * (net.gain Functions.real * (34 / 21 * 1))
      = 2 * (34 / 21) * (net.gain Functions.real : ℝ) := by
    ring
  rw [hscale]
  apply End2EndPipeNet.margin_preferring hl
