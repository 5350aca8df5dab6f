import PipeAI.Algorithm.RepairAndResample
import PipeAI.Algorithm.Robustness

/-!
# The inference script

`infer_rk3588.py` preprocesses a file, runs the model on it some times, and prints the class and the
probabilities of the last answer.  It shares no code with the pipeline, which preprocesses,
classifies and names classes by code of its own.  In exact arithmetic they agree: they feed the
model the same window, and give the same answer the same class, with the same probabilities
(`main_eq_classify`).

The script imports `repair_and_resample` and `CLASSES` from a module that is not given; the module
is a parameter, and taken to have the function and the classes of the training script.  The model is
another: what it answers to each of the calls.
-/

open scoped BigOperators

open Layers NetTraining

/-! ### The pipeline's names of the classes -/

/-- `Classifier::label`. -/
def Classifier.label (id : ℤ) : String :=
  let n := ["normal", "collapse", "bulge", "flip", "torsion"]
  if 0 ≤ id ∧ id < 5 then n.getD id.toNat "unknown" else "unknown"

namespace InferRk3588

/-! ### The code -/

/-- What the script imports from `pipe_rk3588_end2end`. -/
structure PipeRk3588End2end where
  repair_and_resample : List (RawSample ℝ) → (target_len : ℕ) → ℝ →
    Except String (Window ℝ target_len)
  CLASSES : Fin 5 → String

/-- `softmax`. -/
noncomputable def softmax (x : Fin 5 → ℝ) : Fin 5 → ℝ :=
  let m := Finset.univ.sup' Finset.univ_nonempty x
  let e := fun i => Real.exp (x i - m)
  fun i => e i / ∑ j, e j

/-- `main`, for a model that has been loaded and the samples in the file: the class and the
probabilities of the classes that are printed, for the answers `inference` of the model to its
calls. -/
noncomputable def main (imported : PipeRk3588End2end)
    (inference : ℕ → Window ℝ (127 + 1) → Fin 5 → ℝ) (samples : List (RawSample ℝ)) (loops : ℕ) :
    Except String (String × List (String × ℝ)) :=
  match imported.repair_and_resample samples (127 + 1) 150 with
  | .error message => .error message
  | .ok x =>
      match (List.range' 10 loops).getLast? with
      | none => .error "'NoneType' object is not subscriptable"
      | some call =>
          let logits := inference call x
          let prob := softmax logits
          let idx := argmax prob
          .ok (imported.CLASSES idx, List.ofFn (fun i => (imported.CLASSES i, prob i)))

/-- The module that is not given has the function and the classes of the training script, for some
function that smooths as it is documented. -/
structure PipeRk3588End2end.IsTraining (imported : PipeRk3588End2end) : Prop where
  repair_and_resample : ∃ savgol_filter, IsSavgolFilter savgol_filter
    ∧ ∀ samples target_len sensor_min, imported.repair_and_resample samples target_len sensor_min
      = repairAndResample savgol_filter samples target_len sensor_min
  CLASSES : List.ofFn imported.CLASSES = classes.map PipeClass.name

/-- The function and the classes of the training script, with the least-squares fits. -/
noncomputable def training : PipeRk3588End2end where
  repair_and_resample := repairAndResample smooth
  CLASSES := ![ "normal", "collapse", "bulge", "flip", "torsion"]

theorem isTraining_training :
  training.IsTraining
  := by
  constructor
  · exact ⟨smooth, isSavgolFilter_smooth, fun _ _ _ => rfl⟩
  · rfl

/-! ### Its agreement with the pipeline -/

/-- The names of the classes are the same. -/
theorem label_eq {imported : PipeRk3588End2end} (h : imported.IsTraining) (i : Fin 5) :
  Classifier.label (i : ℕ) = imported.CLASSES i
  := by
  rw [List.ofFn_inj.mp (h.CLASSES.trans isTraining_training.CLASSES.symm)]
  fin_cases i <;> rfl

/-- The probabilities are the same. -/
theorem softmax_eq (x : Fin kClassCount → ℝ) :
  softmax x = share (weight Real.exp x)
  := by
  have hmax : Finset.univ.sup' Finset.univ_nonempty x = x (maxElement (fun i => .fin (x i))) := by
    apply le_antisymm
    · apply Finset.sup'_le
      intro i _
      apply (maxElement_fin x i).1
    · apply Finset.le_sup' x (Finset.mem_univ _)
  funext i
  simp only [softmax, share, weight, ← hmax]
  rfl

/-- The script prints the class and the probabilities that the pipeline gives to the answer of the
model, for the window of the samples, to the last call. -/
theorem main_eq {imported : PipeRk3588End2end} (himported : imported.IsTraining)
    (inference : ℕ → Window ℝ (127 + 1) → Fin kClassCount → ℝ) {samples : List (RawSample ℝ)}
    {X : Window ℝ (127 + 1)} (hX : imported.repair_and_resample samples (127 + 1) 150 = .ok X)
    {loops : ℕ} (hloops : 0 < loops) (r : InferenceResult ℝ) :
  ∃ prob : Fin kClassCount → ℝ, ∃ result, result = Classifier.classify expReal { r with
        logits := fun i => .fin (inference (9 + loops) X i) }
    ∧ main imported inference samples loops = .ok (Classifier.label result.class_id,
      List.ofFn (fun i => (Classifier.label (i : ℕ), prob i)))
    ∧ (∀ i, result.probabilities i = .fin (prob i))
    ∧ ∃ i, result.confidence = .fin (prob i) ∧ ∀ j, prob j ≤ prob i
  := by
  let logits := inference (9 + loops) X
  have hexp : ∀ x, expReal (.fin x) = .fin (Real.exp x) := fun _ => rfl
  have hlast : (List.range' 10 loops).getLast? = some (9 + loops) := by
    obtain ⟨n, rfl⟩ := Nat.exists_eq_add_one.mpr hloops
    rw [List.range'_concat, List.getLast?_concat]
    congr 1
    omega
  have hclass : (Classifier.classify expReal { r with logits := fun i => .fin (logits i) }).class_id
      = ((argmax (softmax logits) : Fin 5) : ℕ) := by
    rw [Classifier.classify_fin Real.exp_pos hexp r logits, maxElement_eq_argmax, softmax_eq]
    rfl
  refine ⟨softmax logits, _, rfl, ?_, ?_, argmax (softmax logits), ?_,
    le_argmax (softmax logits)⟩
  · have hnames : (fun i : Fin kClassCount => (Classifier.label (i : ℕ), softmax logits i))
        = fun i => (imported.CLASSES i, softmax logits i) := by
      funext i
      apply congrArg (fun name => (name, softmax logits i)) (label_eq himported i)
    rw [hclass, label_eq himported, hnames]
    simp only [main, hX, hlast]
    rfl
  · intro i
    rw [Classifier.classify_fin Real.exp_pos hexp r logits, softmax_eq]
  · rw [Classifier.classify_fin Real.exp_pos hexp r logits, maxElement_eq_argmax, softmax_eq]

/-- The script and the pipeline agree. -/
theorem main_eq_classify {imported : PipeRk3588End2end} (himported : imported.IsTraining)
    {samples : List (RawSample ℝ)} (h : samples ≠ [])
    (inference : ℕ → Window ℝ (127 + 1) → Fin kClassCount → ℝ) {loops : ℕ} (hloops : 0 < loops)
    (output : ModelInput ℝ) (report : Option PreprocessReport) (r : InferenceResult ℝ) :
  ∃ (x : ModelInput ℝ) (a : Option PreprocessReport) (X : Window ℝ (127 + 1))
      (prob : Fin kClassCount → ℝ),
    Preprocessor.run (Rounding.exact ℝ) ⟨.fin 150⟩ samples output report = some (.success, x, a)
      ∧ imported.repair_and_resample samples (127 + 1) 150 = .ok X
      ∧ (∀ t c, x.get t c = .fin (X t c))
      ∧ ∃ result, result = Classifier.classify expReal
          { r with logits := fun i => .fin (inference (9 + loops) X i) }
        ∧ main imported inference samples loops = .ok (Classifier.label result.class_id,
          List.ofFn (fun i => (Classifier.label (i : ℕ), prob i)))
        ∧ (∀ i, result.probabilities i = .fin (prob i))
        ∧ ∃ i, result.confidence = .fin (prob i) ∧ ∀ j, prob j ≤ prob i
  := by
  obtain ⟨savgol_filter, hsavgol, hrepair⟩ := himported.repair_and_resample
  obtain ⟨x, a, X, hx, hX, hget⟩ := exists_repairAndResample hsavgol h 150 output report
  have hX' : imported.repair_and_resample samples (127 + 1) 150 = .ok X :=
    (hrepair _ _ _).trans hX
  obtain ⟨prob, hprob⟩ := main_eq himported inference hX' hloops r
  exact ⟨x, a, X, prob, hx, hX', hget, hprob⟩

/-- The theorem at eight samples, in the fourth of which the radar values are missing, and a model
that gives the third class the first value of the window. -/
theorem main_eq_classify_eight :
  ∃ samples : List (RawSample ℝ), samples.length = 8
    ∧ (∀ ch, samples[3]?.map (fun sample => sample.radar ch) = some .nan)
    ∧ ∃ (x : ModelInput ℝ) (a : Option PreprocessReport) (X : Window ℝ (127 + 1))
        (prob : Fin kClassCount → ℝ),
      Preprocessor.run (Rounding.exact ℝ) ⟨.fin 150⟩ samples (ModelInput.zero ℝ) none
          = some (.success, x, a)
        ∧ repairAndResample smooth samples (127 + 1) 150 = .ok X
        ∧ (∀ t c, x.get t c = .fin (X t c))
        ∧ ∃ result, result = Classifier.classify expReal { InferenceResult.default ℝ with
            logits := fun i => .fin ((![0, 0, X 0 0, 0, 0] : Fin kClassCount → ℝ) i) }
          ∧ main training (fun _ X => ![0, 0, X 0 0, 0, 0]) samples 50
            = .ok (Classifier.label result.class_id,
              List.ofFn (fun i => (Classifier.label (i : ℕ), prob i)))
          ∧ ∀ i, result.probabilities i = .fin (prob i)
  := by
  let samples : List (RawSample ℝ) := (List.range 8).map (fun i : ℕ =>
    ⟨0, fun _ => if i = 3 then .nan else .fin (200 + i), .fin i⟩)
  have hne : samples ≠ [] := by
    simp [samples]
  refine ⟨samples, rfl, fun _ => rfl, ?_⟩
  have hloops : 0 < 50 := by decide
  obtain ⟨x, a, X, prob, hx, hX, hget, result, hresult, hmain, hprob, -⟩ :=
    main_eq_classify isTraining_training hne (fun _ X => ![0, 0, X 0 0, 0, 0]) hloops
      (ModelInput.zero ℝ) none (InferenceResult.default ℝ)
  exact ⟨x, a, X, prob, hx, hX, hget, result, hresult, hmain, hprob⟩

end InferRk3588
