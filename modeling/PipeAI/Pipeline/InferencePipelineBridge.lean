import PipeAI.Pipeline.Delivery

/-!
# The bridge

`InferencePipelineBridge::run` takes a window through preprocessing, inference and
classification in a single call.  For a window on which the engine answers well, its result is
the one that the pipeline gives to the callback, up to the number of the window, just when the
first and the last sample of the window have the timestamp 0 (`sameOutcome_iff`): the bridge
fills in the timestamps, and the pipeline leaves them 0.
-/

namespace Pipeline

variable {σ K : Type} [Field K] [LinearOrder K]

/-! ### The bridge -/

/-- The fields `engine_` and `ready_` of the bridge; the engine is what it answers for each
tensor. -/
structure InferencePipelineBridge (K : Type) where
  engine : ModelInput K → Answer K
  ready : Bool

/-- `InferencePipelineBridge::run`: whether it succeeds, and the result, unless the preprocessing
throws. -/
def InferencePipelineBridge.run (P : Params K) (bridge : InferencePipelineBridge K)
    (samples : List (RawSample K)) (result : InferenceResult K) :
    Option (Bool × InferenceResult K) :=
  if !bridge.ready then some (false, result) else do
    let (status, input, _) ← Preprocessor.run P.rounding (PreprocessOptions.default K) samples
      (ModelInput.zero K) none
    if !status.ok then return (false, result)
    let a := bridge.engine input
    if !a.status.ok then return (false, result)
    if h : a.output.length < kClassCount then return (false, result)
    else
      let result := { result with
        logits := fun i => a.output.get ⟨i, lt_of_lt_of_le i.isLt (Nat.not_lt.mp h)⟩ }
      let result := Classifier.classify P.exp result
      match samples.head?, samples.getLast? with
      | some front, some back =>
          return (true, { result with
            window_start_ns := front.timestamp_ns
            window_end_ns := back.timestamp_ns })
      | _, _ => return (true, result)

/-- What the bridge fills in for a window and the answer of the engine. -/
def bridgeResult (P : Params K) (window : List (RawSample K)) (a : Answer K) :
    InferenceResult K :=
  { Classifier.classify P.exp (inferenceResult 0 a) with
    window_start_ns := (window.head?.map (fun sample => sample.timestamp_ns)).getD 0
    window_end_ns := (window.getLast?.map (fun sample => sample.timestamp_ns)).getD 0 }

/-- On a window on which the engine answers well, the bridge succeeds from the default result. -/
theorem InferencePipelineBridge.run_of_good {P : Params K} (bridge : InferencePipelineBridge K)
    (hready : bridge.ready = true) {window : List (RawSample K)} {input : ModelInput K}
    (htensor : tensorOf P window = some input) (hgood : (bridge.engine input).Good) :
  bridge.run P window (InferenceResult.default K)
    = some (true, bridgeResult P window (bridge.engine input))
  := by
  obtain ⟨status, report, hrun, hok⟩ := run_of_tensorOf htensor
  obtain ⟨hr, hs, hlen⟩ := hgood
  have hlogits : (fun i : Fin kClassCount => (bridge.engine input).output.get
      ⟨i, lt_of_lt_of_le i.isLt hlen⟩) = (inferenceResult 0 (bridge.engine input)).logits := by
    funext i
    have hi : (i : ℕ) < (bridge.engine input).output.length := lt_of_lt_of_le i.isLt hlen
    simp [inferenceResult, hr, hs, List.getElem?_eq_getElem hi]
  simp only [InferencePipelineBridge.run, hready, hrun, Option.bind_eq_bind, Option.bind_some, hok,
    hs, Bool.not_true, Bool.false_eq_true, if_false, dif_neg (Nat.not_lt.mpr hlen), hlogits]
  cases window with
  | nil => rfl
  | cons front rest =>
      rw [bridgeResult, List.getLast?_cons]
      rfl

/-! ### Agreement -/

/-- Two results agree on every field other than `window_id`. -/
structure SameOutcome (r r' : InferenceResult K) : Prop where
  logits : r.logits = r'.logits
  probabilities : r.probabilities = r'.probabilities
  class_id : r.class_id = r'.class_id
  confidence : r.confidence = r'.confidence
  window_start_ns : r.window_start_ns = r'.window_start_ns
  window_end_ns : r.window_end_ns = r'.window_end_ns
  input_healthy : r.input_healthy = r'.input_healthy

/-- The timestamps of the first and of the last sample of a window are 0. -/
def TimestampsZero (window : List (RawSample K)) : Prop :=
  (∀ front, window.head? = some front → front.timestamp_ns = 0)
    ∧ ∀ back, window.getLast? = some back → back.timestamp_ns = 0

/-- What the pipeline delivers for an answer agrees with what the bridge fills in just when the
timestamps are 0. -/
theorem sameOutcome_bridgeResult (P : Params K) (window_id : UInt64)
    (window : List (RawSample K)) (a : Answer K) :
  SameOutcome (Classifier.classify P.exp (inferenceResult window_id a)) (bridgeResult P window a)
    ↔ TimestampsZero window
  := by
  constructor
  · intro h
    constructor
    · intro front hfront
      have hstart := h.window_start_ns
      rw [bridgeResult, hfront] at hstart
      apply hstart.symm
    · intro back hback
      have hend := h.window_end_ns
      rw [bridgeResult, hback] at hend
      apply hend.symm
  · rintro ⟨hfront, hback⟩
    have hstart : (bridgeResult P window a).window_start_ns = 0 := by
      rw [bridgeResult]
      cases hf : window.head? with
      | none => rfl
      | some front => apply hfront front hf
    have hend : (bridgeResult P window a).window_end_ns = 0 := by
      rw [bridgeResult]
      cases hb : window.getLast? with
      | none => rfl
      | some back => apply hback back hb
    exact ⟨rfl, rfl, rfl, rfl, hstart.symm, hend.symm, rfl⟩

variable [DecidableEq σ]

/-- Let the engine have answered well on the tensor of a window that has been delivered.  The
bridge with an engine that answers the same succeeds on the window, and its result agrees with
the one given to the callback just when the first and the last sample of the window have the
timestamp 0. -/
theorem sameOutcome_iff (P : Params K) {s : State σ K} (h : (system σ P).Reachable s) {k : ℕ}
    {r : InferenceResult K} {input : ModelInput K} {a : Answer K}
    (hr : s.core.callbacks[k]? = some r) (ha : s.core.inferred[k]? = some (input, a))
    (hgood : a.Good) (bridge : InferencePipelineBridge K) (hready : bridge.ready = true)
    (hengine : bridge.engine input = a) :
  ∃ window r', window = block (BlockingQueue.accepted s.raw_queue.log) k
    ∧ window.length = kTargetLength
    ∧ bridge.run P window (InferenceResult.default K) = some (true, r')
    ∧ (SameOutcome r r' ↔ TimestampsZero window)
  := by
  obtain ⟨htensor, hle⟩ := inferred_of_reachable h ha
  obtain ⟨input', a', ha', rfl⟩ := callbacks_of_reachable h hr
  obtain rfl : a' = a := by
    rw [ha] at ha'
    cases ha'
    rfl
  have hrun := InferencePipelineBridge.run_of_good bridge hready htensor
    (by rw [hengine]; apply hgood)
  rw [hengine] at hrun
  refine ⟨_, _, rfl, ?_, hrun, ?_⟩
  · rw [block, List.length_take, List.length_drop]
    rw [Nat.succ_mul] at hle
    omega
  · apply sameOutcome_bridgeResult

/-- The theorem for a window of default-constructed samples. -/
theorem sameOutcome_iff_default :
  ∃ (s : State Unit ℚ) (r : InferenceResult ℚ) (input : ModelInput ℚ),
    (system Unit Params.small).Reachable s ∧ s.core.callbacks[0]? = some r
    ∧ s.core.inferred[0]? = some (input, Answer.zeros)
    ∧ ∃ window r', window = block (BlockingQueue.accepted s.raw_queue.log) 0
      ∧ window.length = kTargetLength
      ∧ InferencePipelineBridge.run Params.small ⟨fun _ => Answer.zeros, true⟩ window
        (InferenceResult.default ℚ) = some (true, r')
      ∧ (SameOutcome r r' ↔ TimestampsZero window)
  := by
  obtain ⟨c, input, ⟨rawLog, tensorLog, resultLog, h⟩, -, -, hinferred, hcallbacks⟩ :=
    exists_delivered Params.small () length_defaultWindow Answer.zeros
  have hr : c.callbacks[0]? = some
      (Classifier.classify Params.small.exp (inferenceResult 1 Answer.zeros)) := by
    rw [hcallbacks]
    rfl
  have ha : c.inferred[0]? = some (input, Answer.zeros) := by
    rw [hinferred]
    rfl
  exact ⟨_, _, input, h, hr, ha,
    sameOutcome_iff Params.small h hr ha Answer.good_zeros ⟨fun _ => Answer.zeros, true⟩ rfl rfl⟩

/-- A window of samples with the timestamp 1. -/
def stampedWindow : List (RawSample ℚ) :=
  List.replicate kTargetLength { RawSample.default ℚ with timestamp_ns := 1 }

/-- On a window of samples with the timestamp 1, the bridge and the pipeline give different
results, though the engine has answered well. -/
theorem not_sameOutcome_stamped :
  ∃ (s : State Unit ℚ) (r r' : InferenceResult ℚ) (input : ModelInput ℚ),
    (system Unit Params.small).Reachable s ∧ s.core.windows = [stampedWindow]
    ∧ s.core.inferred = [(input, Answer.zeros)] ∧ s.core.callbacks = [r]
    ∧ InferencePipelineBridge.run Params.small ⟨fun _ => Answer.zeros, true⟩ stampedWindow
      (InferenceResult.default ℚ) = some (true, r')
    ∧ ¬ SameOutcome r r'
  := by
  have hlen : stampedWindow.length = kTargetLength := List.length_replicate
  obtain ⟨c, input, ⟨rawLog, tensorLog, resultLog, h⟩, htensor, hwindows, hinferred, hcallbacks⟩ :=
    exists_delivered Params.small (σ := Unit) () hlen Answer.zeros
  have hrun := InferencePipelineBridge.run_of_good ⟨fun _ => Answer.zeros, true⟩ rfl
    htensor Answer.good_zeros
  refine ⟨_, _, _, input, h, hwindows, hinferred, hcallbacks, hrun, ?_⟩
  rw [sameOutcome_bridgeResult]
  rintro ⟨hfront, -⟩
  have hone : (1 : UInt64) = 0 := hfront _ rfl
  cases hone

end Pipeline
