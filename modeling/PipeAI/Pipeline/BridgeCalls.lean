import PipeAI.Model.RknnEngine
import PipeAI.Pipeline.InferencePipelineBridge

/-!
# The calls of the bridge

`Bridge` is an `InferencePipelineBridge` together with its engine.  `Bridge.initializeFrom` is
`InferencePipelineBridge::initialize`, which loads a model and keeps in `ready_` whether it
succeeded.  Without a model it returns false at once, and leaves `ready_` as it was, and so does a
load that throws an exception.

A run that does not succeed leaves the result as it was, and one that succeeds fills in the first
logits of this inference and the timestamps of the first and the last sample.  A bridge answers
only when the most recent call of `initialize` or `release` was an `initialize` that succeeded, as
long as `initialize` is not called without a model, nor with one that there is no memory for, on a
bridge that is ready and whose engine can answer, and no longer (`Bridge.answers_iff`).
-/

namespace Pipeline

/-! ### The code -/

/-- `InferencePipelineBridge`: the engine, with the contexts that are alive, and `ready_`. -/
structure Bridge where
  session : RknnEngine.Session
  ready : Bool

namespace Bridge

/-- The default-constructed bridge, when no context is alive. -/
def start : Bridge := ⟨.start, false⟩

/-- `InferencePipelineBridge::initialize` of a model, or of a null pointer: the value returned,
unless an exception is thrown, and the bridge. -/
def initializeFrom (model : Option String) (file : ModelFile) (init : Option UInt64)
    (query : Option IoNum) (b : Bridge) : Option Bool × Bridge :=
  match model with
  | none => (some false, b)
  | some model =>
      let (status, session) := RknnEngine.load model file init query b.session
      let b := { b with session := session }
      match status with
      | none => (none, b)
      | some status =>
          let b := { b with ready := status.ok }
          (some b.ready, b)

/-- `InferencePipelineBridge::release`. -/
def release (b : Bridge) : Bridge where
  session := RknnEngine.close b.session
  ready := false

variable {K : Type} [Field K] [LinearOrder K]

/-- `InferencePipelineBridge::run`: the value returned, and the result, unless an exception is
thrown. -/
def run (P : Params K) (b : Bridge) (answer : InferAnswer K) (samples : List (RawSample K))
    (result : InferenceResult K) : Option (Bool × InferenceResult K) :=
  if !b.ready then some (false, result) else do
    let (status, input, _) ← Preprocessor.run P.rounding (PreprocessOptions.default K) samples
      (ModelInput.zero K) none
    if !status.ok then return (false, result)
    let (status, logits) ← RknnEngine.infer b.session.engine answer input []
    if !status.ok then return (false, result)
    if h : logits.length < kClassCount then return (false, result)
    else
      let result := { result with
        logits := fun i => logits.get ⟨i, lt_of_lt_of_le i.isLt (Nat.not_lt.mp h)⟩ }
      let result := Classifier.classify P.exp result
      match samples.head?, samples.getLast? with
      | some front, some back =>
          return (true, { result with
            window_start_ns := front.timestamp_ns
            window_end_ns := back.timestamp_ns })
      | _, _ => return (true, result)

omit [Field K] [LinearOrder K] in
/-- A call of the bridge, with what the file system and the runtime library answer. -/
inductive Call (K : Type) where
  | initializeFrom (model : Option String) (file : ModelFile) (init : Option UInt64)
      (query : Option IoNum)
  | run (answer : InferAnswer K) (samples : List (RawSample K)) (result : InferenceResult K)
  | release

/-- A bridge, and whether the most recent call of `initialize` or `release`, if any, was an
`initialize` that returned true. -/
structure History where
  bridge : Bridge
  initialized : Bool

/-- A bridge that has not been called. -/
def History.start : History := ⟨.start, false⟩

/-- The history after another call. -/
def History.step (h : History) : Call K → History
  | .initializeFrom model file init query =>
      ⟨(initializeFrom model file init query h.bridge).2,
        (initializeFrom model file init query h.bridge).1.getD false⟩
  | .run _ _ _ => h
  | .release => ⟨release h.bridge, false⟩

/-! ### A run -/

/-- With an engine that answers, the bridge runs as with its answers. -/
theorem run_eq (P : Params K) (b : Bridge) (answer : InferAnswer K)
    {engine : ModelInput K → Answer K}
    (h : ∀ input, RknnEngine.infer b.session.engine answer input []
      = some ((engine input).status, (engine input).output))
    (samples : List (RawSample K)) (result : InferenceResult K) :
  b.run P answer samples result
    = InferencePipelineBridge.run P ⟨engine, b.ready⟩ samples result
  := by
  cases hpre : Preprocessor.run P.rounding (PreprocessOptions.default K) samples
      (ModelInput.zero K) none with
  | none => simp [run, InferencePipelineBridge.run, hpre]
  | some p =>
      cases hfront : samples.head? <;> cases hback : samples.getLast? <;>
        simp [run, InferencePipelineBridge.run, h, hpre, hfront, hback]

/-- What a run that succeeds has done: the bridge is ready, the engine has answered on the tensor
of the samples with the logits, and the result has the first of them and the timestamps. -/
structure Answered (P : Params K) (b : Bridge) (answer : InferAnswer K)
    (samples : List (RawSample K)) (result r : InferenceResult K) : Prop where
  ready : b.ready = true
  answered : ∃ input status logits, tensorOf P samples = some input
    ∧ RknnEngine.infer b.session.engine answer input [] = some (status, logits)
    ∧ status.ok = true ∧ kClassCount ≤ logits.length
    ∧ ∀ i : Fin kClassCount, logits[(i : ℕ)]? = some (r.logits i)
  window_start_ns : samples.head?.map (fun sample => sample.timestamp_ns) = some r.window_start_ns
  window_end_ns : samples.getLast?.map (fun sample => sample.timestamp_ns) = some r.window_end_ns
  classified : r = { Classifier.classify P.exp { result with logits := r.logits } with
    window_start_ns := r.window_start_ns
    window_end_ns := r.window_end_ns }

/-- The result with the first of the logits, classified, and the timestamps of two samples. -/
def filled (P : Params K) {logits : List (Flt K)} (hlen : kClassCount ≤ logits.length)
    (front back : RawSample K) (result : InferenceResult K) : InferenceResult K :=
  { Classifier.classify P.exp { result with
      logits := fun i => logits.get ⟨i, lt_of_lt_of_le i.isLt hlen⟩ } with
    window_start_ns := front.timestamp_ns
    window_end_ns := back.timestamp_ns }

/-- A run on samples that have a tensor, with an engine that answers well, succeeds. -/
theorem run_of_tensorOf {P : Params K} {b : Bridge} (hready : b.ready = true)
    {samples : List (RawSample K)} {input : ModelInput K}
    (htensor : tensorOf P samples = some input)
    {answer : InferAnswer K} {status : Status} {logits : List (Flt K)}
    (hinfer : RknnEngine.infer b.session.engine answer input [] = some (status, logits))
    (hok : status.ok = true) (hlen : kClassCount ≤ logits.length) {front back : RawSample K}
    (hfront : samples.head? = some front) (hback : samples.getLast? = some back)
    (result : InferenceResult K) :
  b.run P answer samples result = some (true, filled P hlen front back result)
  := by
  obtain ⟨status', report, hpre, hok'⟩ := Pipeline.run_of_tensorOf htensor
  simp only [run, hready, hpre, hinfer, Option.bind_eq_bind, Option.bind_some, hok, hok',
    Bool.not_true, Bool.false_eq_true, if_false, dif_neg (Nat.not_lt.mpr hlen), hfront, hback]
  rfl

/-- Such a run answers. -/
theorem exists_answered {P : Params K} {b : Bridge} (hready : b.ready = true)
    {samples : List (RawSample K)} {input : ModelInput K}
    (htensor : tensorOf P samples = some input)
    {answer : InferAnswer K} {status : Status} {logits : List (Flt K)}
    (hinfer : RknnEngine.infer b.session.engine answer input [] = some (status, logits))
    (hok : status.ok = true) (hlen : kClassCount ≤ logits.length) (result : InferenceResult K) :
  ∃ r, b.run P answer samples result = some (true, r) ∧ Answered P b answer samples result r
  := by
  have hne : samples ≠ [] := by
    rintro rfl
    cases htensor
  have hfront := List.head?_eq_some_head hne
  have hback := List.getLast?_eq_some_getLast hne
  refine ⟨_, run_of_tensorOf hready htensor hinfer hok hlen hfront hback result, hready,
    ⟨input, status, logits, htensor, hinfer, hok, hlen, ?_⟩, ?_, ?_, ?_⟩
  · intro i
    apply List.getElem?_eq_getElem
  · rw [hfront]
    rfl
  · rw [hback]
    rfl
  · rfl

/-- A run throws an exception, or does not succeed and leaves the result as it was, or answers. -/
theorem run_cases (P : Params K) (b : Bridge) (answer : InferAnswer K)
    (samples : List (RawSample K)) (result : InferenceResult K) :
  b.run P answer samples result = none
    ∨ b.run P answer samples result = some (false, result)
    ∨ ∃ r, b.run P answer samples result = some (true, r)
      ∧ Answered P b answer samples result r
  := by
  cases hready : b.ready with
  | false =>
      right
      left
      rw [run, hready]
      rfl
  | true =>
      cases hpre : Preprocessor.run P.rounding (PreprocessOptions.default K) samples
          (ModelInput.zero K) none with
      | none =>
          left
          simp [run, hready, hpre]
      | some p =>
          obtain ⟨status, input, report⟩ := p
          cases hok : status.ok with
          | false =>
              right
              left
              simp [run, hready, hpre, hok]
          | true =>
              have htensor : tensorOf P samples = some input := by
                rw [tensorOf, hpre]
                simp [hok]
              cases hinfer : RknnEngine.infer b.session.engine answer input [] with
              | none =>
                  left
                  simp [run, hready, hpre, hok, hinfer]
              | some q =>
                  obtain ⟨status', logits⟩ := q
                  cases hok' : status'.ok with
                  | false =>
                      right
                      left
                      simp [run, hready, hpre, hok, hinfer, hok']
                  | true =>
                      by_cases hlen : logits.length < kClassCount
                      · right
                        left
                        simp [run, hready, hpre, hok, hinfer, hok', hlen]
                      · right
                        right
                        apply exists_answered hready htensor hinfer hok' (Nat.not_lt.mp hlen) result

/-- A run that returns false leaves the result as it was, and one that returns true has answered. -/
theorem run_spec (P : Params K) (b : Bridge) (answer : InferAnswer K)
    (samples : List (RawSample K)) (result r : InferenceResult K) :
  (b.run P answer samples result = some (false, r) → r = result)
    ∧ (b.run P answer samples result = some (true, r) → Answered P b answer samples result r)
  := by
  rcases run_cases P b answer samples result with hrun | hrun | ⟨r', hrun, hanswered⟩
  · rw [hrun]
    constructor <;> rintro ⟨⟩
  · rw [hrun]
    constructor
    · rintro ⟨⟩
      rfl
    · rintro ⟨⟩
  · rw [hrun]
    constructor
    · rintro ⟨⟩
    · rintro ⟨⟩
      apply hanswered

/-! ### Which bridges answer -/

omit [Field K] [LinearOrder K] in
/-- An engine that answers with a logit has an output. -/
theorem output_of_infer {engine : RknnEngine} {answer : InferAnswer K} {input : ModelInput K}
    {status : Status} {logits : List (Flt K)}
    (h : RknnEngine.infer engine answer input [] = some (status, logits))
    (hlogits : logits ≠ []) :
  0 < engine.output_count
  := by
  rw [RknnEngine.infer] at h
  split at h
  · cases h
    apply absurd rfl hlogits
  · split at h
    · cases h
      apply absurd rfl hlogits
    · split at h
      · cases h
        apply absurd rfl hlogits
      · split at h
        · cases h
        · split at h
          · cases h
            apply absurd rfl hlogits
          · split at h
            · rename_i houtput
              apply houtput
            · cases h
              apply absurd rfl hlogits

/-- What the runtime library answers when the inference succeeds with `kClassCount` zeros. -/
def zeros (K : Type) [Zero K] : InferAnswer K where
  inputs_set := fun _ => true
  run := true
  outputs_get := some (some (List.replicate kClassCount (.fin 0)))

omit [LinearOrder K] in
/-- An initialized engine with an output gives the zeros. -/
theorem infer_zeros {engine : RknnEngine} (hinit : engine.initialized = true)
    (houtput : 0 < engine.output_count) (input : ModelInput K) :
  RknnEngine.infer engine (zeros K) input []
    = some (.success, List.replicate kClassCount (.fin 0))
  := by
  have hneg : ¬ engine.output_count < 0 := by
    rw [Int32.lt_iff_toInt_lt] at houtput ⊢
    omega
  rw [RknnEngine.infer, hinit]
  simp [zeros, hneg, houtput]

/-- The bridge is ready, and its engine has an output. -/
def CanAnswer (b : Bridge) : Prop :=
  b.ready = true ∧ 0 < b.session.engine.output_count

/-- A bridge that is ready has an engine that is initialized. -/
def Settled (b : Bridge) : Prop :=
  b.ready = true → b.session.engine.initialized = true

/-- A settled bridge answers, on some samples, exactly when it is ready and its engine has an
output. -/
theorem exists_run_iff (P : Params K) {b : Bridge} (hb : Settled b) :
  (∃ answer samples result r, b.run P answer samples result = some (true, r)) ↔ CanAnswer b
  := by
  constructor
  · rintro ⟨answer, samples, result, r, hrun⟩
    have hanswered := (run_spec P b answer samples result r).2 hrun
    obtain ⟨input, status, logits, -, hinfer, -, hlen, -⟩ := hanswered.answered
    have hlogits : logits ≠ [] := by
      rintro rfl
      cases hlen
    exact ⟨hanswered.ready, output_of_infer hinfer hlogits⟩
  · rintro ⟨hready, houtput⟩
    obtain ⟨input, htensor⟩ := exists_tensorOf P (length_defaultWindow (K := K))
    have hinfer := infer_zeros (hb hready) houtput input
    obtain ⟨r, hrun, -⟩ := exists_answered hready htensor hinfer rfl
      (le_of_eq List.length_replicate.symm) (InferenceResult.default K)
    exact ⟨_, _, _, r, hrun⟩

/-! ### Histories -/

/-- The bridge answers only if the most recent call of `initialize` or `release` was an
`initialize` that returned true. -/
def OnlyInitialized (P : Params K) (h : History) : Prop :=
  ∀ answer samples result r, h.bridge.run P answer samples result = some (true, r) →
    h.initialized = true

/-- The condition on a call that it does not call `initialize` without a model, nor with one that
there is no memory for, on a bridge that is ready and whose engine has an output. -/
def KeepsReady (h : History) : Call K → Prop
  | .initializeFrom none _ _ _ => ¬ CanAnswer h.bridge
  | .initializeFrom (some _) file _ _ =>
      file.Throws h.bridge.session.engine.model_buffer → ¬ CanAnswer h.bridge
  | _ => True

/-- The property for a settled bridge, in terms of the bridge. -/
theorem onlyInitialized_iff (P : Params K) {h : History} (hb : Settled h.bridge) :
  OnlyInitialized P h ↔ (CanAnswer h.bridge → h.initialized = true)
  := by
  rw [← exists_run_iff P hb]
  constructor
  · rintro honly ⟨answer, samples, result, r, hrun⟩
    apply honly _ _ _ _ hrun
  · intro himp answer samples result r hrun
    apply himp ⟨_, _, _, _, hrun⟩

omit [Field K] [LinearOrder K] in
/-- What `initialize` does: it leaves the bridge, when there is no model or no memory for it; or it
keeps in `ready_` what it returns, and a bridge that is ready then has an engine that is
initialized. -/
theorem initializeFrom_cases (model : Option String) (file : ModelFile) (init : Option UInt64)
    (query : Option IoNum) (b : Bridge) :
  ((model = none ∨ file.Throws b.session.engine.model_buffer)
      ∧ (initializeFrom model file init query b).1.getD false = false
      ∧ (initializeFrom model file init query b).2 = b)
    ∨ ((∃ path, model = some path) ∧ ¬ file.Throws b.session.engine.model_buffer
      ∧ (initializeFrom model file init query b).1
        = some (initializeFrom model file init query b).2.ready
      ∧ Settled (initializeFrom model file init query b).2)
  := by
  cases model with
  | none =>
      left
      exact ⟨Or.inl rfl, rfl, rfl⟩
  | some path =>
      have hloads := RknnEngine.loads path file init query b.session
      rw [initializeFrom]
      generalize RknnEngine.load path file init query b.session = r at hloads
      cases hloads with
      | threw hthrows =>
          left
          exact ⟨Or.inr hthrows, rfl, rfl⟩
      | rejected hthrows hleaves hok =>
          right
          refine ⟨⟨path, rfl⟩, hthrows, rfl, ?_⟩
          simp [Settled, hok]
      | cleared hleaves hmodel hok =>
          right
          refine ⟨⟨path, rfl⟩, fun h => hleaves h.leavesData, rfl, ?_⟩
          simp [Settled, hok]
      | failed hleaves hmodel hinit hok =>
          right
          refine ⟨⟨path, rfl⟩, fun h => hleaves h.leavesData, rfl, ?_⟩
          simp [Settled, hok]
      | closed hleaves hmodel hinit hok =>
          right
          refine ⟨⟨path, rfl⟩, fun h => hleaves h.leavesData, rfl, ?_⟩
          simp [Settled, hok]
      | opened hleaves hmodel hinit =>
          right
          exact ⟨⟨path, rfl⟩, fun h => hleaves h.leavesData, rfl, fun _ => rfl⟩

omit [Field K] [LinearOrder K] in
/-- A call leaves the bridge settled. -/
theorem settled_step {h : History} (hb : Settled h.bridge) (call : Call K) :
  Settled (h.step call).bridge
  := by
  cases call with
  | initializeFrom model file init query =>
      rcases initializeFrom_cases model file init query h.bridge with
        ⟨-, -, heq⟩ | ⟨-, -, -, hsettled⟩
      · rw [History.step, heq]
        apply hb
      · apply hsettled
  | run answer samples result => apply hb
  | release =>
      intro hready
      cases hready

omit [Field K] [LinearOrder K] in
/-- The condition on a call of `initialize`. -/
theorem keepsReady_initializeFrom {h : History} {model : Option String} {file : ModelFile}
    {init : Option UInt64} {query : Option IoNum} :
  KeepsReady h (.initializeFrom model file init query : Call K)
    ↔ (model = none ∨ file.Throws h.bridge.session.engine.model_buffer → ¬ CanAnswer h.bridge)
  := by
  cases model <;> simp [KeepsReady]

/-- A call keeps the property exactly when it meets the condition. -/
theorem onlyInitialized_step_iff (P : Params K) {h : History} (hb : Settled h.bridge)
    (honly : OnlyInitialized P h) (call : Call K) :
  OnlyInitialized P (h.step call) ↔ KeepsReady h call
  := by
  rw [onlyInitialized_iff P (settled_step hb call)]
  cases call with
  | initializeFrom model file init query =>
      rw [keepsReady_initializeFrom, History.step]
      rcases initializeFrom_cases model file init query h.bridge with
        ⟨hleaves, hfalse, heq⟩ | ⟨⟨path, rfl⟩, hthrows, hready, -⟩
      · rw [heq, hfalse]
        simp [hleaves]
      · rw [hready]
        apply iff_of_true
        · rintro ⟨h, -⟩
          apply h
        · simp [hthrows]
  | run answer samples result =>
      apply iff_of_true _ trivial
      apply (onlyInitialized_iff P hb).mp honly
  | release =>
      apply iff_of_true _ trivial
      rintro ⟨hready, -⟩
      cases hready

/-- Throughout any calls, a run that returns false leaves the result as it was, and one that returns
true has filled it with this call's inference.  The bridge answers only if the most recent call of
`initialize` or `release` was an `initialize` that returned true, throughout the calls, if and only
if none of them calls `initialize` without a model, or with one that there is no memory for, on a
bridge that is ready and whose engine has an output. -/
theorem answers_iff (P : Params K) (calls : List (Call K)) :
  Throughout History.step (fun h => ∀ answer samples result r,
      (h.bridge.run P answer samples result = some (false, r) → r = result)
      ∧ (h.bridge.run P answer samples result = some (true, r) →
        Answered P h.bridge answer samples result r)) .start calls
    ∧ (Throughout History.step (OnlyInitialized P) .start calls
      ↔ EachCall History.step KeepsReady .start calls)
  := by
  constructor
  · intro before _ answer samples result r
    apply run_spec
  · have hstart : Settled History.start.bridge ∧ OnlyInitialized P History.start := by
      constructor
      · intro hready
        cases hready
      · rw [onlyInitialized_iff P (fun hready => by cases hready)]
        rintro ⟨hready, -⟩
        cases hready
    have hvalid : EachCall History.step (fun _ (_ : Call K) => True) .start calls :=
      fun _ _ _ => trivial
    have hiff := throughout_iff_eachCall (P := fun h => Settled h.bridge ∧ OnlyInitialized P h)
      (C := KeepsReady) hstart hvalid (by
        rintro h call ⟨hb, honly⟩ -
        rw [← onlyInitialized_step_iff P hb honly]
        simp [settled_step hb call])
    have hsettled := throughout_of_invariant (P := fun h : History => Settled h.bridge) hstart.1
      hvalid (fun h call hb _ => settled_step hb call)
    rw [← hiff]
    constructor
    · apply hsettled.and
    · intro hthroughout
      exact hthroughout.imp (fun h hboth => hboth.2)

/-- A bridge that is ready, with an engine that has an output, answers a window. -/
theorem exists_run_zeros {b : Bridge} (hready : b.ready = true)
    (hinit : b.session.engine.initialized = true) (houtput : b.session.engine.output_count = 1) :
  ∃ r, b.run Params.small (zeros ℚ) (defaultWindow ℚ) (InferenceResult.default ℚ) = some (true, r)
  := by
  have hpos : 0 < b.session.engine.output_count := by
    rw [houtput]
    decide
  obtain ⟨input, htensor⟩ := exists_tensorOf Params.small (length_defaultWindow (K := ℚ))
  obtain ⟨r, hrun, -⟩ := exists_answered hready htensor (infer_zeros hinit hpos input) rfl
    (le_of_eq List.length_replicate.symm) (InferenceResult.default ℚ)
  exact ⟨r, hrun⟩

/-- After a call of `initialize` that has succeeded, a call without a model returns false, and a
call with a directory, whose size no memory can hold, throws an exception; and the bridge still
answers. -/
theorem answers_after_failure :
  (∃ h : History, h = [.initializeFrom (some "pipe_model.rknn") (.readable 1 true [7]) (some 1)
        (some ⟨1, 1⟩), (.initializeFrom none .unreadable none none
          : Call ℚ)].foldl History.step .start
      ∧ h.initialized = false
      ∧ ∃ r, h.bridge.run Params.small (zeros ℚ) (defaultWindow ℚ) (InferenceResult.default ℚ)
        = some (true, r))
    ∧ ∃ h : History, h = [.initializeFrom (some "pipe_model.rknn") (.readable 1 true [7]) (some 1)
        (some ⟨1, 1⟩), (.initializeFrom (some "models") (.readable (2 ^ 63 - 1) false []) none none
          : Call ℚ)].foldl History.step .start
      ∧ h.initialized = false
      ∧ ∃ r, h.bridge.run Params.small (zeros ℚ) (defaultWindow ℚ) (InferenceResult.default ℚ)
        = some (true, r)
  := by
  constructor
  · refine ⟨_, rfl, rfl, ?_⟩
    apply exists_run_zeros <;> rfl
  · refine ⟨_, rfl, rfl, ?_⟩
    apply exists_run_zeros <;> rfl

end Bridge
end Pipeline
