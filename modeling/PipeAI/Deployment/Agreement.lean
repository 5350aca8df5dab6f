import PipeAI.Deployment.InferRk3588
import PipeAI.Pipeline.Delivery
import PipeAI.Pipeline.Schedule

/-!
# The pipeline and the script

The threads of the pipeline form windows of the samples that are submitted, preprocess them, infer
and classify them; the script does this with one file.  In exact arithmetic, and with an engine that
gives the answers of the model, whatever the interleaving of the threads is, the results of the
pipeline are what the script prints for the blocks of the samples, in order
(`Pipeline.prints_of_reachable`).
-/

open Layers NetTraining InferRk3588

namespace Pipeline

/-- Exact arithmetic, with the exponential function, and queues of some capacity. -/
noncomputable def Params.exact (queue_capacity : ℕ) (h : 0 < queue_capacity) : Params ℝ where
  rounding := Rounding.exact ℝ
  exp := expReal
  queue_capacity := queue_capacity
  capacity_pos := h

/-- The engine answers for a tensor what the model gives for the window of its values. -/
structure Answer.Gives (model : Window ℝ (127 + 1) → Fin kClassCount → ℝ) (input : ModelInput ℝ)
    (a : Answer ℝ) : Prop where
  ready : a.ready = true
  ok : a.status.ok = true
  output : ∀ X : Window ℝ (127 + 1), (∀ t c, input.get t c = .fin (X t c)) →
    a.output = List.ofFn (fun i => .fin (model X i))

/-- The tensor of a window has the values of the window that the script computes. -/
theorem exists_repairAndResample_of_tensorOf {imported : PipeRk3588End2end}
    (himported : imported.IsTraining) {n : ℕ} {hn : 0 < n} {window : List (RawSample ℝ)}
    {input : ModelInput ℝ} (h : tensorOf (Params.exact n hn) window = some input) :
  ∃ X, imported.repair_and_resample window (127 + 1) 150 = .ok X
    ∧ ∀ t c, input.get t c = .fin (X t c)
  := by
  have hne : window ≠ [] := by
    rintro rfl
    cases h
  obtain ⟨savgol_filter, hsavgol, hrepair⟩ := himported.repair_and_resample
  obtain ⟨x, report, X, hrun, hX, hget⟩ :=
    exists_repairAndResample hsavgol hne ((150 : ℕ) : ℝ) (ModelInput.zero ℝ) none
  have hx : tensorOf (Params.exact n hn) window = some x := by
    rw [tensorOf, Params.exact, PreprocessOptions.default, hrun]
    rfl
  rw [hx, Option.some.injEq] at h
  rw [Nat.cast_ofNat] at hX
  refine ⟨X, (hrepair _ _ _).trans hX, ?_⟩
  rw [← h]
  apply hget

/-- The logits of a result are those of the model. -/
theorem inferenceResult_of_gives {model : Window ℝ (127 + 1) → Fin kClassCount → ℝ}
    {input : ModelInput ℝ} {a : Answer ℝ} (h : a.Gives model input) {X : Window ℝ (127 + 1)}
    (hX : ∀ t c, input.get t c = .fin (X t c)) (window_id : UInt64) :
  inferenceResult window_id a
    = { { InferenceResult.default ℝ with window_id := window_id } with
        logits := fun i => .fin (model X i) }
  := by
  have hlogits : (fun i : Fin kClassCount =>
        if a.ready && a.status.ok then (a.output[(i : ℕ)]?).getD (.fin 0) else .fin 0)
      = fun i => .fin (model X i) := by
    funext i
    simp [h.ready, h.ok, h.output X hX]
  rw [inferenceResult, hlogits]

variable {σ : Type} [DecidableEq σ]

/-- In every run of the pipeline in which the engine gives the answers of the model, the result
number `k` that the callback is given has the class and the probabilities that the script prints for
the block number `k` of the samples accepted. -/
theorem prints_of_reachable {imported : PipeRk3588End2end} (himported : imported.IsTraining)
    {n : ℕ} {hn : 0 < n} {s : State σ ℝ} (h : (system σ (Params.exact n hn)).Reachable s)
    {model : Window ℝ (127 + 1) → Fin kClassCount → ℝ}
    (hmodel : ∀ p ∈ s.core.inferred, p.2.Gives model p.1) {loops : ℕ} (hloops : 0 < loops)
    {k : ℕ} {r : InferenceResult ℝ} (hr : s.core.callbacks[k]? = some r) :
  (k + 1) * kTargetLength ≤ (BlockingQueue.accepted s.raw_queue.log).length
    ∧ r.window_id = UInt64.ofNat (k + 1)
    ∧ ∃ prob : Fin kClassCount → ℝ, InferRk3588.main imported (fun _ => model)
          (block (BlockingQueue.accepted s.raw_queue.log) k) loops
        = .ok (Classifier.label r.class_id,
          List.ofFn (fun i => (Classifier.label (i : ℕ), prob i)))
      ∧ (∀ i, r.probabilities i = .fin (prob i))
      ∧ ∃ i, r.confidence = .fin (prob i) ∧ ∀ j, prob j ≤ prob i
  := by
  obtain ⟨input, a, hinferred, rfl⟩ := callbacks_of_reachable h hr
  obtain ⟨htensor, hlen⟩ := inferred_of_reachable h hinferred
  obtain ⟨X, hX, hget⟩ := exists_repairAndResample_of_tensorOf himported htensor
  have hgives := hmodel _ (List.mem_of_getElem? hinferred)
  rw [inferenceResult_of_gives hgives hget]
  obtain ⟨prob, result, rfl, hprints⟩ := InferRk3588.main_eq himported (fun _ => model) hX hloops
    { InferenceResult.default ℝ with window_id := UInt64.ofNat (k + 1) }
  exact ⟨hlen, rfl, prob, hprints⟩

/-- The theorem for a window that has been delivered, and a model that always prefers the third
class. -/
theorem prints_of_reachable_window :
  ∃ s : State Unit ℝ, (system Unit (Params.exact 1 one_pos)).Reachable s
    ∧ ∃ r, s.core.callbacks = [r] ∧ r.window_id = 1
      ∧ ∃ prob : Fin kClassCount → ℝ, InferRk3588.main training (fun _ _ => ![0, 0, 1, 0, 0])
          (block (BlockingQueue.accepted s.raw_queue.log) 0) 50
        = .ok (Classifier.label r.class_id,
          List.ofFn (fun i => (Classifier.label (i : ℕ), prob i)))
  := by
  obtain ⟨c, input, ⟨rawLog, tensorLog, resultLog, h⟩, -, -, hinferred, hcallbacks⟩ :=
    exists_delivered (Params.exact 1 one_pos) () length_defaultWindow
      ⟨true, .success, List.ofFn (fun i => .fin ((![0, 0, 1, 0, 0] : Fin 5 → ℝ) i))⟩
  have hmodel : ∀ p ∈ c.inferred, p.2.Gives (fun _ => ![0, 0, 1, 0, 0]) p.1 := by
    rw [hinferred]
    intro p hp
    cases List.mem_singleton.mp hp
    exact ⟨rfl, rfl, fun _ _ => rfl⟩
  have hloops : 0 < 50 := by decide
  have hresult : c.callbacks[0]? = _ := congrArg (fun l => l[0]?) hcallbacks
  obtain ⟨-, hid, prob, hprints, -⟩ := prints_of_reachable isTraining_training h hmodel
    hloops hresult
  exact ⟨_, h, _, hcallbacks, hid, prob, hprints⟩

end Pipeline
