import PipeAI.Pipeline.Restart

/-!
# Windows in flight

Before `stop` is called, no queue refuses what a stage pushes.  Every window that has been formed
is then in one place: its result has been given to the callback, or it is in the hand of a
stage, as a tensor or as a result, or it is in one of the queues.  The places follow each other
in the order of the windows (`inFlight_of_reachable`).

A stage has at most one window in hand, and the queues are bounded.  Hence the samples accepted
are at most so many ahead of the results delivered, whatever the speed of the threads.
-/

namespace BlockingQueue

variable {T τ : Type}

/-- A thread that is in no call has nothing in hand, and offers nothing. -/
theorem nothing_of_idle {s : State τ T} {t : τ} (h : (monitor T).InCall none (s.phase t)) :
  inHand (s.phase t).view = [] ∧ onOffer (s.phase t).view = []
  := by
  have hidle : s.phase t = .idle := h
  rw [hidle]
  exact ⟨rfl, rfl⟩

theorem length_inHand_le (v : Monitor.View (Op T) (Ret T)) :
  (inHand v).length ≤ 1
  := by
  cases v with
  | after r =>
      rw [inHand_after]
      cases takenValue r <;> simp
  | _ => apply Nat.zero_le

theorem length_onOffer_le (v : Monitor.View (Op T) (Ret T)) :
  (onOffer v).length ≤ 1
  := by
  cases v with
  | before op =>
      rw [onOffer_before]
      cases op.pushes <;> simp
  | _ => apply Nat.zero_le

end BlockingQueue

namespace Pipeline

variable {σ K : Type} [Field K] [LinearOrder K]

/-! ### What the stages have in hand -/

/-- The tensor the first stage has in hand: it has still to offer it, or offers it. -/
def State.firstOutput (P : Params K) (s : State σ K) : List (ModelInput K) :=
  BlockingQueue.onOffer (s.tensor_queue.phase (.stage .preprocess)).view
    ++ s.core.preprocess.tensor P

omit [Field K] [LinearOrder K] in
/-- The tensor the second stage has in hand: it has received it, or is about to. -/
def State.secondInput (s : State σ K) : List (ModelInput K) :=
  s.core.inference.tensor
    ++ BlockingQueue.inHand (s.tensor_queue.phase (.stage .inference)).view

omit [Field K] [LinearOrder K] in
/-- The result the second stage has in hand: it has still to offer it, or offers it. -/
def State.secondOutput (s : State σ K) : List (InferenceResult K) :=
  BlockingQueue.onOffer (s.result_queue.phase (.stage .inference)).view
    ++ s.core.inference.result

omit [Field K] [LinearOrder K] in
/-- The result the third stage has in hand: it has received it, or is about to. -/
def State.thirdInput (s : State σ K) : List (InferenceResult K) :=
  s.core.post.result ++ BlockingQueue.inHand (s.result_queue.phase (.stage .post)).view

omit [Field K] [LinearOrder K] in
theorem length_toList_le {α : Type} (o : Option α) :
  o.toList.length ≤ 1
  := by
  cases o <;> simp

/-- The first stage has at most one tensor in hand. -/
theorem Synced.length_firstOutput (P : Params K) {s : State σ K} (h : Synced s) :
  (s.firstOutput P).length ≤ 1
  := by
  have hcall := h.tensor (.stage .preprocess)
  rw [Core.tensorCall, Core.calling] at hcall
  rw [State.firstOutput, List.length_append]
  cases hp : s.core.preprocess with
  | pushing input =>
      have hle := BlockingQueue.length_onOffer_le
        (s.tensor_queue.phase (.stage .preprocess)).view
      simpa [PreprocessPc.tensor] using hle
  | swapped window =>
      rw [hp] at hcall
      rw [(BlockingQueue.nothing_of_idle hcall).2, PreprocessPc.tensor]
      split
      · simp
      · rw [List.length_nil, Nat.zero_add]
        apply length_toList_le
  | unlocked window =>
      rw [hp] at hcall
      rw [(BlockingQueue.nothing_of_idle hcall).2, PreprocessPc.tensor]
      split
      · simp
      · rw [List.length_nil, Nat.zero_add]
        apply length_toList_le
  | _ =>
      rw [hp] at hcall
      rw [(BlockingQueue.nothing_of_idle hcall).2]
      simp [PreprocessPc.tensor]

omit [Field K] [LinearOrder K] in
/-- The second stage has at most one tensor or result in hand. -/
theorem Synced.length_second {s : State σ K} (h : Synced s) :
  s.secondInput.length + s.secondOutput.length ≤ 1
  := by
  have htensor := h.tensor (.stage .inference)
  have hresult := h.result (.stage .inference)
  rw [Core.tensorCall, Core.calling] at htensor
  rw [Core.resultCall, Core.calling] at hresult
  rw [State.secondInput, State.secondOutput, List.length_append, List.length_append]
  cases hp : s.core.inference with
  | popping =>
      rw [hp] at hresult
      rw [(BlockingQueue.nothing_of_idle hresult).2]
      have hle := BlockingQueue.length_inHand_le
        (s.tensor_queue.phase (.stage .inference)).view
      simpa [InferencePc.tensor, InferencePc.result] using hle
  | pushing result =>
      rw [hp] at htensor
      rw [(BlockingQueue.nothing_of_idle htensor).1]
      have hle := BlockingQueue.length_onOffer_le
        (s.result_queue.phase (.stage .inference)).view
      simpa [InferencePc.tensor, InferencePc.result] using hle
  | _ =>
      rw [hp] at htensor hresult
      rw [(BlockingQueue.nothing_of_idle htensor).1, (BlockingQueue.nothing_of_idle hresult).2]
      simp [InferencePc.tensor, InferencePc.result]

omit [Field K] [LinearOrder K] in
/-- The third stage has at most one result in hand. -/
theorem Synced.length_thirdInput {s : State σ K} (h : Synced s) :
  s.thirdInput.length ≤ 1
  := by
  have hcall := h.result (.stage .post)
  rw [Core.resultCall, Core.calling] at hcall
  rw [State.thirdInput, List.length_append]
  cases hp : s.core.post with
  | popping =>
      have hle := BlockingQueue.length_inHand_le (s.result_queue.phase (.stage .post)).view
      simpa [PostPc.result] using hle
  | _ =>
      rw [hp] at hcall
      rw [(BlockingQueue.nothing_of_idle hcall).1]
      simp [PostPc.result]

/-! ### The places of the windows -/

variable [DecidableEq σ] {P : Params K}

/-- Before `stop` is called, no queue is closed. -/
theorem open_of_not_stopCalled {s : State σ K} (h : (system σ P).Reachable s)
    (hnot : ¬ s.core.StopCalled) (k : Stage) :
  s.closed k = false
  := by
  cases hk : s.closed k with
  | false => rfl
  | true => apply absurd (stopCalled_of_closed h hk) hnot

/-- Before `stop` is called, the tensors of the windows are, in order, those inferred, the one
the second stage has in hand, those in the queue, and the one the first stage has in hand. -/
theorem tensors_eq {s : State σ K} (h : (system σ P).Reachable s)
    (hnot : ¬ s.core.StopCalled) :
  s.core.windows.filterMap (tensorOf P)
    = s.core.inferred.map Prod.fst ++ s.secondInput ++ s.tensor_queue.shared.queue
      ++ s.firstOutput P
  := by
  obtain ⟨-, htensor, -⟩ := accepted_eq h
  obtain ⟨L, hoffered, hwindows⟩ := transforming_of_reachable h
  obtain ⟨hconsumed, -, -⟩ := inferring_of_reachable h
  have hopen : s.tensor_queue.shared.closed = false := open_of_not_stopCalled h hnot .inference
  rw [hwindows, hoffered.complete hopen, htensor, hconsumed, State.secondInput,
    State.firstOutput]
  simp only [List.append_assoc]

/-- Before `stop` is called, the results are, in order, those delivered, the one the third stage
has in hand, those in the queue, and the one the second stage has in hand. -/
theorem results_eq {s : State σ K} (h : (system σ P).Reachable s)
    (hnot : ¬ s.core.StopCalled) :
  (resultsOf s.core.inferred).map (Classifier.classify P.exp)
    = s.core.callbacks ++ (s.thirdInput ++ s.result_queue.shared.queue
      ++ s.secondOutput).map (Classifier.classify P.exp)
  := by
  obtain ⟨-, -, hresult⟩ := accepted_eq h
  obtain ⟨-, ⟨L, hoffered, hresults⟩, -⟩ := inferring_of_reachable h
  obtain ⟨L', hconsumed, hcallbacks⟩ := posting_of_reachable h
  have hopen : s.result_queue.shared.closed = false := open_of_not_stopCalled h hnot .post
  rw [hresults, hoffered.complete hopen, hresult, hconsumed, hcallbacks, State.thirdInput,
    State.secondOutput]
  simp only [List.append_assoc, List.map_append]

omit [DecidableEq σ] in
/-- A list of windows that are not empty has as many tensors. -/
theorem length_filterMap_tensorOf {windows : List (List (RawSample K))}
    (h : ∀ w ∈ windows, w.length = kTargetLength) :
  (windows.filterMap (tensorOf P)).length = windows.length
  := by
  rw [List.filterMap_length_eq_length]
  intro w hw
  apply tensorOf_isSome
  rintro rfl
  cases h [] hw

/-- The contents of the queues are within the capacity. -/
theorem lengths_le {s : State σ K} (h : (system σ P).Reachable s) :
  s.raw_queue.shared.queue.length ≤ P.queue_capacity
    ∧ s.tensor_queue.shared.queue.length ≤ P.queue_capacity
    ∧ s.result_queue.shared.queue.length ≤ P.queue_capacity
  := by
  refine ⟨?_, ?_, ?_⟩
  · apply BlockingQueue.length_queue_le P.capacity_pos ((rawProjection σ P).reachable h)
  · apply BlockingQueue.length_queue_le P.capacity_pos ((tensorProjection σ P).reachable h)
  · apply BlockingQueue.length_queue_le P.capacity_pos ((resultProjection σ P).reachable h)

/-! ### The window in the hand of the first stage -/

omit [DecidableEq σ] [Field K] [LinearOrder K] in
/-- The first stage has a window or its tensor in hand. -/
def PreprocessPc.HoldsWindow : PreprocessPc K → Prop
  | .swapped window => window ≠ []
  | .unlocked window => window ≠ []
  | .push _ => True
  | .pushing _ => True
  | _ => False

omit [DecidableEq σ] in
/-- The steps of the first stage keep the buffer empty while it has a window in hand. -/
theorem PreprocessStep.buffer {c c' : Core σ K} {a : Action K} (h : PreprocessStep P c a c')
    (hc : c.preprocess.HoldsWindow → c.window_buffer = []) (hc' : c'.preprocess.HoldsWindow) :
  c'.window_buffer = []
  := by
  cases h with
  | swap hp hsize => rfl
  | noSwap hp hsize => apply absurd rfl hc'
  | exit ht hr => apply hc hc'
  | run hp hw hrun =>
      rw [hp] at hc
      apply hc hw
  | unlock hp =>
      rw [hp] at hc
      apply hc hc'
  | callPush hp =>
      rw [hp] at hc
      apply hc trivial
  | _ => cases hc'

/-- While the first stage has a window in hand, the buffer is empty. -/
theorem buffer_of_holdsWindow {s : State σ K} (h : (system σ P).Reachable s) :
  s.core.preprocess.HoldsWindow → s.core.window_buffer = []
  := by
  apply h.invariant
  · rintro s rfl -
    rfl
  · intro s t s' _ ih hstep
    obtain ⟨a, hc, -⟩ | ⟨hcore, -⟩ := hstep.cases
    · by_cases ht : t = .stage .preprocess
      · subst ht
        apply PreprocessStep.buffer hc ih
      · obtain ⟨hp, hb, -, -⟩ := CoreStep.forming hc ht
        rw [hp, hb]
        apply ih
    · rw [hcore]
      apply ih

omit [DecidableEq σ] in
/-- Where the first stage has a tensor in hand, it has a window in hand. -/
theorem holdsWindow_of_firstOutput {s : State σ K} (h : Synced s) (hne : s.firstOutput P ≠ []) :
  s.core.preprocess.HoldsWindow
  := by
  have hcall := h.tensor (.stage .preprocess)
  rw [Core.tensorCall, Core.calling] at hcall
  rw [State.firstOutput] at hne
  cases hp : s.core.preprocess with
  | push input => trivial
  | pushing input => trivial
  | swapped window =>
      rw [hp] at hcall hne
      rw [(BlockingQueue.nothing_of_idle hcall).2, PreprocessPc.tensor] at hne
      rintro rfl
      apply hne rfl
  | unlocked window =>
      rw [hp] at hcall hne
      rw [(BlockingQueue.nothing_of_idle hcall).2, PreprocessPc.tensor] at hne
      rintro rfl
      apply hne rfl
  | _ =>
      rw [hp] at hcall hne
      rw [(BlockingQueue.nothing_of_idle hcall).2] at hne
      apply absurd rfl hne

omit [Field K] [LinearOrder K] [DecidableEq σ] in
/-- With a window in hand, the first stage has no sample in hand. -/
theorem Synced.inHand_of_holdsWindow {s : State σ K} (h : Synced s)
    (hw : s.core.preprocess.HoldsWindow) :
  s.inHand = []
  := by
  have hnone : s.core.preprocess.sample = [] ∧ s.core.preprocess.call.bind Call.onRaw = none := by
    cases hp : s.core.preprocess with
    | swapped window => exact ⟨rfl, rfl⟩
    | unlocked window => exact ⟨rfl, rfl⟩
    | push input => exact ⟨rfl, rfl⟩
    | pushing input => exact ⟨rfl, rfl⟩
    | _ =>
        rw [hp] at hw
        cases hw
  have hcall := h.raw (.stage .preprocess)
  rw [Core.rawCall, Core.calling, hnone.2] at hcall
  rw [State.inHand, hnone.1, (BlockingQueue.nothing_of_idle hcall).1, List.append_nil]

/-- The samples in the buffer and in the hand of the first stage are at most a window. -/
theorem length_buffer_le {s : State σ K} (h : (system σ P).Reachable s) :
  s.core.window_buffer.length + s.inHand.length ≤ kTargetLength
  := by
  have hhand := (synced_of_reachable h).length_inHand
  have hbuffer := (forming_of_reachable h).buffer
  have hcall := (synced_of_reachable h).raw (.stage .preprocess)
  rw [Core.rawCall, Core.calling] at hcall
  cases hp : s.core.preprocess with
  | appended =>
      rw [hp] at hbuffer hcall
      rw [State.inHand, hp, (BlockingQueue.nothing_of_idle hcall).1]
      apply hbuffer
  | _ =>
      rw [hp] at hbuffer
      have hbuffer : s.core.window_buffer.length ≤ kTargetLength - 1 := hbuffer
      have hpos : 0 < kTargetLength := by decide
      omega

/-! ### Backpressure -/

/-- Before `stop` is called, the windows formed are at most so many ahead of the results delivered
as the queues and the hands of the second and the third stage hold, and the one in the hand of the
first stage. -/
theorem length_windows_le {s : State σ K} (h : (system σ P).Reachable s)
    (hnot : ¬ s.core.StopCalled) :
  s.core.windows.length
    ≤ s.core.callbacks.length + (2 * P.queue_capacity + 2) + (s.firstOutput P).length
  := by
  have hsecond := (synced_of_reachable h).length_second
  have hthird := (synced_of_reachable h).length_thirdInput
  obtain ⟨-, htensor, hresult⟩ := lengths_le h
  have hformed : s.core.windows.length = s.core.inferred.length + s.secondInput.length
      + s.tensor_queue.shared.queue.length + (s.firstOutput P).length := by
    rw [← length_filterMap_tensorOf (P := P) (forming_of_reachable h).windows, tensors_eq h hnot]
    simp only [List.length_append, List.length_map]
  have hinferred : s.core.inferred.length = s.core.callbacks.length + (s.thirdInput.length
      + s.result_queue.shared.queue.length + s.secondOutput.length) := by
    have hlen := congrArg List.length (results_eq h hnot)
    simpa [resultsOf, Nat.add_assoc] using hlen
  omega

/-- Before `stop` is called, the samples accepted are at most so many windows, and the contents of
the raw queue, ahead of the results delivered. -/
theorem length_accepted_le {s : State σ K} (h : (system σ P).Reachable s)
    (hnot : ¬ s.core.StopCalled) :
  (BlockingQueue.accepted s.raw_queue.log).length
    ≤ (s.core.callbacks.length + (2 * P.queue_capacity + 3)) * kTargetLength + P.queue_capacity
  := by
  have hsynced := synced_of_reachable h
  have hlen := length_accepted_samples h
  have hwindows := length_windows_le h hnot
  have hfirst := hsynced.length_firstOutput P
  have hraw := (lengths_le h).1
  by_cases hempty : s.firstOutput P = []
  · have hbuffer := length_buffer_le h
    rw [hempty, List.length_nil] at hwindows
    have hle : s.core.windows.length + 1
        ≤ s.core.callbacks.length + (2 * P.queue_capacity + 3) := by omega
    have hmul := Nat.mul_le_mul_right kTargetLength hle
    rw [Nat.add_mul, Nat.one_mul] at hmul
    omega
  · have hholds := holdsWindow_of_firstOutput hsynced hempty
    rw [buffer_of_holdsWindow h hholds, hsynced.inHand_of_holdsWindow hholds] at hlen
    have hle : s.core.windows.length
        ≤ s.core.callbacks.length + (2 * P.queue_capacity + 3) := by omega
    have hmul := Nat.mul_le_mul_right kTargetLength hle
    simp only [List.length_nil] at hlen
    omega

/-- In every reachable state before `stop` is called, the windows formed are in one place each, in
the order of the places: their results have been delivered, or are in the hand of the third
stage, in the result queue, or in the hand of the second stage; or their tensors are in the hand
of the second stage, in the tensor queue, or in the hand of the first stage.  The first and the
third stage have at most one window in hand, and so has the second; a queue has at most
`queue_capacity`.  Hence at most `2 * queue_capacity + 3` windows are formed and not delivered,
and the samples accepted by `submit` are at most that many windows, and the contents of the raw
queue, ahead of the results delivered. -/
theorem inFlight_of_reachable (P : Params K) {s : State σ K} (h : (system σ P).Reachable s)
    (hnot : ¬ s.core.StopCalled) :
  s.core.windows.filterMap (tensorOf P)
      = s.core.inferred.map Prod.fst ++ s.secondInput ++ s.tensor_queue.shared.queue
        ++ s.firstOutput P
    ∧ (resultsOf s.core.inferred).map (Classifier.classify P.exp)
      = s.core.callbacks ++ (s.thirdInput ++ s.result_queue.shared.queue
        ++ s.secondOutput).map (Classifier.classify P.exp)
    ∧ ((s.firstOutput P).length ≤ 1 ∧ s.secondInput.length + s.secondOutput.length ≤ 1
      ∧ s.thirdInput.length ≤ 1)
    ∧ s.core.windows.length ≤ s.core.callbacks.length + (2 * P.queue_capacity + 3)
    ∧ (BlockingQueue.accepted s.raw_queue.log).length
      ≤ (s.core.callbacks.length + (2 * P.queue_capacity + 3)) * kTargetLength
        + P.queue_capacity
  := by
  have hsynced := synced_of_reachable h
  have hfirst := hsynced.length_firstOutput P
  have hwindows := length_windows_le h hnot
  exact ⟨tensors_eq h hnot, results_eq h hnot,
    ⟨hfirst, hsynced.length_second, hsynced.length_thirdInput⟩, by omega,
    length_accepted_le h hnot⟩

/-- The theorem after a window has been delivered, with the tensor of another one in the hand of the
first stage. -/
theorem inFlight_of_reachable_formed :
  ∃ s : State Unit ℚ, (system Unit Params.small).Reachable s ∧ ¬ s.core.StopCalled
    ∧ s.core.callbacks.length = 1 ∧ s.core.windows.length = 2
    ∧ (s.firstOutput Params.small).length = 1
    ∧ s.core.windows.filterMap (tensorOf Params.small)
      = s.core.inferred.map Prod.fst ++ s.secondInput ++ s.tensor_queue.shared.queue
        ++ s.firstOutput Params.small
    ∧ (resultsOf s.core.inferred).map (Classifier.classify Params.small.exp)
      = s.core.callbacks ++ (s.thirdInput ++ s.result_queue.shared.queue
        ++ s.secondOutput).map (Classifier.classify Params.small.exp)
    ∧ s.core.windows.length ≤ s.core.callbacks.length + 5
    ∧ (BlockingQueue.accepted s.raw_queue.log).length
      ≤ (s.core.callbacks.length + 5) * kTargetLength + 1
  := by
  obtain ⟨input, htensor, hwindow⟩ := exists_quiet_afterWindow
  obtain ⟨rawLog, tensorLog, resultLog, h⟩ :=
    hwindow.form (ready_afterWindow input) rfl () length_defaultWindow htensor
  have hnot : ¬ (Core.started Unit ℚ).StopCalled := by
    rintro (hmem | hin)
    · cases List.mem_singleton.mp hmem
    · cases hin
  obtain ⟨htensors, hresults, -, hwindows, haccepted⟩ := inFlight_of_reachable Params.small h hnot
  exact ⟨_, h, hnot, rfl, rfl, rfl, htensors, hresults, hwindows, haccepted⟩

end Pipeline
