import PipeAI.Concurrency.Solo
import PipeAI.Pipeline.Pipeline

/-!
# Schedules of the pipeline

Where no thread is inside a queue, a thread can get through an operation of the queue before
any other thread moves (`Resting.onRaw`, `Resting.onTensor`, `Resting.onResult`).  From such
rounds runs of the pipeline are put together: `start` returns and the workers enter their loops
(`quiet_started`), each window of samples is submitted, preprocessed, inferred with a given
answer of the engine, and delivered before the next one (`Quiet.window`), and `stop` closes the
queues and joins the workers once they have left their loops (`Resting.closeQueues`,
`Resting.stopWorkers`).
-/

namespace Pipeline

variable {σ K : Type} [Field K] [LinearOrder K] [DecidableEq σ] {P : Params K}

/-! ### Rounds -/

variable {c c₁ c₂ c₃ c₄ : Core σ K} {t u : Thread σ}
  {raw raw' : BlockingQueue.State (Thread σ) (RawSample K)}
  {tensor tensor' : BlockingQueue.State (Thread σ) (ModelInput K)}
  {result result' : BlockingQueue.State (Thread σ) (InferenceResult K)}

/-- The raw queue takes steps on its own. -/
theorem reachable_raw (h : (system σ P).Reachable ⟨c, raw, tensor, result⟩)
    (hrun : Relation.ReflTransGen (fun q q' => (BlockingQueue.monitor _).Internal q t q')
      raw raw') :
  (system σ P).Reachable ⟨c, raw', tensor, result⟩
  := by
  induction hrun with
  | refl => apply h
  | tail _ hq ih => exact ih.step (Step.raw hq)

/-- The tensor queue takes steps on its own. -/
theorem reachable_tensor (h : (system σ P).Reachable ⟨c, raw, tensor, result⟩)
    (hrun : Relation.ReflTransGen (fun q q' => (BlockingQueue.monitor _).Internal q t q')
      tensor tensor') :
  (system σ P).Reachable ⟨c, raw, tensor', result⟩
  := by
  induction hrun with
  | refl => apply h
  | tail _ hq ih => exact ih.step (Step.tensor hq)

/-- The result queue takes steps on its own. -/
theorem reachable_result (h : (system σ P).Reachable ⟨c, raw, tensor, result⟩)
    (hrun : Relation.ReflTransGen (fun q q' => (BlockingQueue.monitor _).Internal q t q')
      result result') :
  (system σ P).Reachable ⟨c, raw, tensor, result'⟩
  := by
  induction hrun with
  | refl => apply h
  | tail _ hq ih => exact ih.step (Step.result hq)

/-- The core and the contents of the queues are those of a reachable state in which no thread is
inside a queue. -/
def Resting (P : Params K) (c : Core σ K) (raw : BlockingQueue (RawSample K))
    (tensor : BlockingQueue (ModelInput K)) (result : BlockingQueue (InferenceResult K)) : Prop :=
  ∃ rawLog tensorLog resultLog, (system σ P).Reachable
    ⟨c, Monitor.calm _ raw rawLog, Monitor.calm _ tensor tensorLog,
      Monitor.calm _ result resultLog⟩

variable {rawq : BlockingQueue (RawSample K)} {tensorq : BlockingQueue (ModelInput K)}
  {resultq : BlockingQueue (InferenceResult K)}

/-- A step of the core that leaves the queues. -/
theorem Resting.tau (h : Resting P c rawq tensorq resultq) (t : Thread σ)
    (hc : CoreStep P c t .tau c₁) :
  Resting P c₁ rawq tensorq resultq
  := by
  obtain ⟨rawLog, tensorLog, resultLog, h⟩ := h
  use rawLog, tensorLog, resultLog
  apply h.step (Step.tau hc)

/-- A thread gets through an operation of the raw queue. -/
theorem Resting.onRaw (h : Resting P c rawq tensorq resultq) (t : Thread σ)
    (op : BlockingQueue.Op (RawSample K))
    (hready : (BlockingQueue.monitor _).ready op rawq = true)
    (hcall : CoreStep P c t (.call (.raw op)) c₁)
    (hret : CoreStep P c₁ t (.ret (.raw ((BlockingQueue.monitor _).body op rawq).1)) c₂) :
  Resting P c₂ ((BlockingQueue.monitor _).body op rawq).2 tensorq resultq
  := by
  obtain ⟨rawLog, tensorLog, resultLog, h⟩ := h
  have hc := h.step (Step.rawCall hcall rfl)
  have hs := reachable_raw hc (Monitor.solo (BlockingQueue.monitor _) t rawLog hready)
  have hr := hs.step (Step.rawReturn hret (Monitor.alone_phase_self ..))
  simp only [Monitor.alone_ret] at hr
  exact ⟨_, tensorLog, resultLog, hr⟩

/-- A thread gets through an operation of the tensor queue. -/
theorem Resting.onTensor (h : Resting P c rawq tensorq resultq) (t : Thread σ)
    (op : BlockingQueue.Op (ModelInput K))
    (hready : (BlockingQueue.monitor _).ready op tensorq = true)
    (hcall : CoreStep P c t (.call (.tensor op)) c₁)
    (hret : CoreStep P c₁ t (.ret (.tensor ((BlockingQueue.monitor _).body op tensorq).1)) c₂) :
  Resting P c₂ rawq ((BlockingQueue.monitor _).body op tensorq).2 resultq
  := by
  obtain ⟨rawLog, tensorLog, resultLog, h⟩ := h
  have hc := h.step (Step.tensorCall hcall rfl)
  have hs := reachable_tensor hc (Monitor.solo (BlockingQueue.monitor _) t tensorLog hready)
  have hr := hs.step (Step.tensorReturn hret (Monitor.alone_phase_self ..))
  simp only [Monitor.alone_ret] at hr
  exact ⟨rawLog, _, resultLog, hr⟩

/-- A thread gets through an operation of the result queue. -/
theorem Resting.onResult (h : Resting P c rawq tensorq resultq) (t : Thread σ)
    (op : BlockingQueue.Op (InferenceResult K))
    (hready : (BlockingQueue.monitor _).ready op resultq = true)
    (hcall : CoreStep P c t (.call (.result op)) c₁)
    (hret : CoreStep P c₁ t (.ret (.result ((BlockingQueue.monitor _).body op resultq).1)) c₂) :
  Resting P c₂ rawq tensorq ((BlockingQueue.monitor _).body op resultq).2
  := by
  obtain ⟨rawLog, tensorLog, resultLog, h⟩ := h
  have hc := h.step (Step.resultCall hcall rfl)
  have hs := reachable_result hc (Monitor.solo (BlockingQueue.monitor _) t resultLog hready)
  have hr := hs.step (Step.resultReturn hret (Monitor.alone_phase_self ..))
  simp only [Monitor.alone_ret] at hr
  exact ⟨rawLog, tensorLog, _, hr⟩

/-! ### Quiet states -/

/-- The core is that of a reachable state in which the queues are empty and open, with no thread
inside. -/
def Quiet (P : Params K) (c : Core σ K) : Prop :=
  Resting P c (.empty _ P.queue_capacity P.capacity_pos) (.empty _ P.queue_capacity P.capacity_pos)
    (.empty _ P.queue_capacity P.capacity_pos)

omit [DecidableEq σ] [Field K] [LinearOrder K] in
/-- A push on the empty queue does not wait. -/
theorem pushReady_empty {T : Type} (capacity : ℕ) (h : 0 < capacity) (value : T) :
  (BlockingQueue.monitor T).ready (.push value) (.empty T capacity h) = true
  := by
  simp [BlockingQueue.monitor, BlockingQueue.pushReady, BlockingQueue.empty, h]

/-- A step of the core that leaves the queues. -/
theorem Quiet.tau (h : Quiet P c) (t : Thread σ) (hc : CoreStep P c t .tau c₁) :
  Quiet P c₁
  := Resting.tau h t hc

/-- A sample goes through the raw queue. -/
theorem Quiet.throughRaw (h : Quiet P c) (t u : Thread σ) {value : RawSample K}
    (hpush : CoreStep P c t (.call (.raw (.push value))) c₁)
    (hpushed : CoreStep P c₁ t (.ret (.raw (.pushed true))) c₂)
    (hpop : CoreStep P c₂ u (.call (.raw .pop)) c₃)
    (hpopped : CoreStep P c₃ u (.ret (.raw (.popped (some value)))) c₄) :
  Quiet P c₄
  := by
  have h₁ := Resting.onRaw h t _ (pushReady_empty ..) hpush hpushed
  apply h₁.onRaw u .pop rfl hpop hpopped

/-- A tensor goes through the tensor queue. -/
theorem Quiet.throughTensor (h : Quiet P c) (t u : Thread σ) {value : ModelInput K}
    (hpush : CoreStep P c t (.call (.tensor (.push value))) c₁)
    (hpushed : CoreStep P c₁ t (.ret (.tensor (.pushed true))) c₂)
    (hpop : CoreStep P c₂ u (.call (.tensor .pop)) c₃)
    (hpopped : CoreStep P c₃ u (.ret (.tensor (.popped (some value)))) c₄) :
  Quiet P c₄
  := by
  have h₁ := Resting.onTensor h t _ (pushReady_empty ..) hpush hpushed
  apply h₁.onTensor u .pop rfl hpop hpopped

/-- A result goes through the result queue. -/
theorem Quiet.throughResult (h : Quiet P c) (t u : Thread σ) {value : InferenceResult K}
    (hpush : CoreStep P c t (.call (.result (.push value))) c₁)
    (hpushed : CoreStep P c₁ t (.ret (.result (.pushed true))) c₂)
    (hpop : CoreStep P c₂ u (.call (.result .pop)) c₃)
    (hpopped : CoreStep P c₃ u (.ret (.result (.popped (some value)))) c₄) :
  Quiet P c₄
  := by
  have h₁ := Resting.onResult h t _ (pushReady_empty ..) hpush hpushed
  apply h₁.onResult u .pop rfl hpop hpopped

/-! ### The start of the pipeline -/

/-- The core after `start` has returned true and the workers have entered their loops. -/
def Core.started (σ K : Type) : Core σ K :=
  { Core.initial σ K with
    preprocess := .pop
    inference := .pop
    post := .pop
    worker := fun _ => ⟨true, some .loop⟩
    lifecycle := [.started true] }

/-- `start` sets the flag of a worker and assigns its thread. -/
theorem Resting.startWorker (h : Resting P c rawq tensorq resultq) {k : Stage} {ok : Bool}
    (hp : c.control = .starting k ok) (hw : c.worker k = .idle) :
  Resting P ((c.setWorker k ⟨true, some .test⟩).nextStart k ok) rawq tensorq resultq
  := by
  have hx : ((c.worker k).exchange true).1 = false := by
    rw [hw]
    rfl
  have h₁ := h.tau .control (ControlStep.startWins hp hx)
  have hassign : (Function.update c.worker k ((c.worker k).exchange true).2 k).assign
      = some ⟨true, some .test⟩ := by
    rw [Function.update_self, hw]
    rfl
  have h₂ := h₁.tau .control (ControlStep.assign rfl hassign)
  simpa [Core.setWorker, Core.nextStart] using h₂

/-- `start` starts the workers. -/
theorem Resting.startWorkers (h : Resting P c rawq tensorq resultq) (hp : c.control = .idle)
    (hw : ∀ k, c.worker k = .idle) :
  Resting P { c with
    worker := fun _ => ⟨true, some .test⟩
    lifecycle := c.lifecycle ++ [.started true] } rawq tensorq resultq
  := by
  have h₁ := h.tau .control (ControlStep.invokeStart hp)
  have h₂ := h₁.startWorker rfl (hw .preprocess)
  have h₃ := h₂.startWorker rfl (hw .inference)
  have h₄ := h₃.startWorker rfl (hw .post)
  convert h₄ using 1
  rw [Core.nextStart, ← hp]
  congr 1
  funext k
  cases k <;> rfl

/-- The started pipeline is quiet. -/
theorem quiet_started :
  Quiet P (Core.started σ K)
  := by
  have h : Quiet P (Core.initial σ K) := ⟨[], [], [], .init rfl⟩
  have h₂ : Quiet P _ := Resting.startWorkers h rfl (fun _ => rfl)
  have h₃ := h₂.tau (.stage .preprocess) (PreprocessStep.enter rfl rfl rfl)
  have h₄ := h₃.tau (.stage .inference) (InferenceStep.enter rfl rfl rfl)
  have h₅ := h₄.tau (.stage .post) (PostStep.enter rfl rfl rfl)
  convert h₅ using 1
  rw [Core.started]
  congr 1
  funext k
  cases k <;> rfl

/-! ### Windows -/

/-- The workers are in their loops, before their calls of `pop`, and no other thread is in a
call. -/
structure Core.Ready (c : Core σ K) : Prop where
  preprocess : c.preprocess = .pop
  inference : c.inference = .pop
  post : c.post = .pop
  control : c.control = .idle
  submitting : ∀ i, c.submitting i = none
  mutex : c.window_mutex = false

omit [DecidableEq σ] [Field K] [LinearOrder K] in
theorem ready_started :
  (Core.started σ K).Ready
  := ⟨rfl, rfl, rfl, rfl, fun _ => rfl, rfl⟩

/-- A sample is submitted and appended to the buffer. -/
theorem Quiet.feed (h : Quiet P c) (hc : c.Ready) (i : σ) (sample : RawSample K) :
  Quiet P { c with
    window_buffer := c.window_buffer ++ [sample]
    window_mutex := true
    preprocess := .appended }
  := by
  have hsub : Function.update (Function.update c.submitting i (some sample)) i none
      = c.submitting := by
    rw [Function.update_idem, ← hc.submitting i, Function.update_eq_self]
  have h₁ := h.throughRaw (.submitter i) (.stage .preprocess)
    (SubmitStep.submit (hc.submitting i) sample)
    (SubmitStep.submitReturns (Function.update_self i (some sample) c.submitting))
    (PreprocessStep.callPop hc.preprocess) (PreprocessStep.popReturns rfl)
  have h₂ := h₁.tau (.stage .preprocess) (PreprocessStep.lock rfl hc.mutex)
  have h₃ := h₂.tau (.stage .preprocess) (PreprocessStep.append rfl)
  simpa only [hsub] using h₃

/-- A sample is submitted and appended to the buffer, which still has no full window. -/
theorem Quiet.append (h : Quiet P c) (hc : c.Ready) (i : σ) (sample : RawSample K)
    (hlen : c.window_buffer.length + 1 < kTargetLength) :
  Quiet P { c with window_buffer := c.window_buffer ++ [sample] }
  := by
  have h₁ := h.feed hc i sample
  have h₂ := h₁.tau (.stage .preprocess) (PreprocessStep.noSwap rfl (by simpa using hlen))
  have h₃ := h₂.tau (.stage .preprocess) (PreprocessStep.unlock rfl)
  have h₄ := h₃.tau (.stage .preprocess) (PreprocessStep.skip rfl)
  have hcore : { c with window_buffer := c.window_buffer ++ [sample] }
      = { c with
        window_buffer := c.window_buffer ++ [sample]
        window_mutex := false
        preprocess := .pop } := by
    rw [← hc.mutex, ← hc.preprocess]
  rw [hcore]
  apply h₄

/-- Samples are submitted one after the other and appended to the buffer, which still has no full
window. -/
theorem Quiet.fill (h : Quiet P c) (hc : c.Ready) (i : σ) (samples : List (RawSample K))
    (hlen : c.window_buffer.length + samples.length < kTargetLength) :
  Quiet P { c with window_buffer := c.window_buffer ++ samples }
  := by
  induction samples using List.reverseRecOn with
  | nil => simpa using h
  | append_singleton samples sample ih =>
      rw [List.length_append, List.length_singleton] at hlen
      have h₁ := ih (by omega)
      have h₂ := h₁.append ⟨hc.1, hc.2, hc.3, hc.4, hc.5, hc.6⟩ i sample
        (by simp only [List.length_append]; omega)
      simpa using h₂

/-- A window is submitted, formed and preprocessed: the first stage has its tensor in hand. -/
theorem Quiet.form (h : Quiet P c) (hc : c.Ready) (hbuffer : c.window_buffer = []) (i : σ)
    {window : List (RawSample K)} (hlen : window.length = kTargetLength)
    {input : ModelInput K} (htensor : tensorOf P window = some input) :
  Quiet P { c with
    windows := c.windows ++ [window]
    preprocess := .push input }
  := by
  obtain rfl | ⟨samples, sample, rfl⟩ := List.eq_nil_or_concat' window
  · cases hlen
  rw [List.length_append, List.length_singleton] at hlen
  have h₁ := h.fill hc i samples (by rw [hbuffer, List.length_nil]; omega)
  have h₂ := h₁.feed ⟨hc.1, hc.2, hc.3, hc.4, hc.5, hc.6⟩ i sample
  rw [hbuffer, List.nil_append] at h₂
  have h₃ := h₂.tau (.stage .preprocess) (PreprocessStep.swap rfl
    (by simp only [List.length_append, List.length_singleton]; omega))
  have h₄ := h₃.tau (.stage .preprocess) (PreprocessStep.unlock rfl)
  obtain ⟨status, report, hrun, hok⟩ := run_of_tensorOf htensor
  have h₅ := h₄.tau (.stage .preprocess) (PreprocessStep.run rfl (by simp) hrun)
  rw [if_pos hok] at h₅
  have hcore : { c with
      windows := c.windows ++ [samples ++ [sample]]
      preprocess := .push input }
      = { c with
        preprocess := .push input
        window_buffer := []
        window_mutex := false
        windows := c.windows ++ [samples ++ [sample]] } := by
    rw [← hc.mutex, ← hbuffer]
  rw [hcore]
  apply h₅

/-- A window is submitted, preprocessed, inferred with the answer `a` of the engine, and
delivered. -/
theorem Quiet.window (h : Quiet P c) (hc : c.Ready) (hbuffer : c.window_buffer = []) (i : σ)
    {window : List (RawSample K)} (hlen : window.length = kTargetLength)
    {input : ModelInput K} (htensor : tensorOf P window = some input) (a : Answer K) :
  Quiet P { c with
    windows := c.windows ++ [window]
    window_id := c.window_id + 1
    inferred := c.inferred ++ [(input, a)]
    callbacks := c.callbacks
      ++ [Classifier.classify P.exp (inferenceResult (c.window_id + 1) a)] }
  := by
  have h₁ := h.form hc hbuffer i hlen htensor
  have h₂ := h₁.throughTensor (.stage .preprocess) (.stage .inference)
    (PreprocessStep.callPush rfl) (PreprocessStep.pushReturns rfl)
    (InferenceStep.callPop hc.inference) (InferenceStep.popReturns rfl)
  have h₃ := h₂.tau (.stage .inference) (InferenceStep.infer rfl a)
  have h₄ := h₃.throughResult (.stage .inference) (.stage .post)
    (InferenceStep.callPush rfl) (InferenceStep.pushReturns rfl)
    (PostStep.callPop hc.post) (PostStep.popReturns rfl)
  have h₅ := h₄.tau (.stage .post) (PostStep.callback rfl)
  have hcore : { c with
      windows := c.windows ++ [window]
      window_id := c.window_id + 1
      inferred := c.inferred ++ [(input, a)]
      callbacks := c.callbacks
        ++ [Classifier.classify P.exp (inferenceResult (c.window_id + 1) a)] }
      = { c with
        preprocess := .pop
        inference := .pop
        post := .pop
        windows := c.windows ++ [window]
        window_id := c.window_id + 1
        inferred := c.inferred ++ [(input, a)]
        callbacks := c.callbacks
          ++ [Classifier.classify P.exp (inferenceResult (c.window_id + 1) a)] } := by
    rw [← hc.preprocess, ← hc.inference, ← hc.post]
  rw [hcore]
  apply h₅

/-! ### The end of the pipeline -/

/-- `stop` closes the queues. -/
theorem Resting.closeQueues (h : Resting P c rawq tensorq resultq) (hp : c.control = .idle) :
  Resting P { c with control := .stopping .preprocess } rawq.close tensorq.close resultq.close
  := by
  have h₁ := h.tau .control (ControlStep.invokeStop hp)
  have h₂ := h₁.onRaw .control .close rfl (ControlStep.callClose (k := .preprocess) rfl)
    (ControlStep.closeReturns (k := .preprocess) rfl)
  have h₃ := h₂.onTensor .control .close rfl (ControlStep.callClose (k := .inference) rfl)
    (ControlStep.closeReturns (k := .inference) rfl)
  apply h₃.onResult .control .close rfl (ControlStep.callClose (k := .post) rfl)
    (ControlStep.closeReturns (k := .post) rfl)

/-- The core with the threads of the workers out of their loops, before the tests of the flags. -/
def Core.left (c : Core σ K) : Core σ K :=
  { c with
    preprocess := .outside
    inference := .outside
    post := .outside
    worker := fun k => (c.worker k).loopReturns }

/-- The threads of the workers find the queues closed and empty, and leave their loops. -/
theorem Resting.leave (h : Resting P c rawq tensorq resultq) (hpre : c.preprocess = .pop)
    (hinf : c.inference = .pop) (hpost : c.post = .pop) (hraw : rawq.queue = [])
    (hrawc : rawq.closed = true) (htensor : tensorq.queue = []) (htensorc : tensorq.closed = true)
    (hresult : resultq.queue = []) (hresultc : resultq.closed = true) :
  Resting P c.left rawq tensorq resultq
  := by
  have h₁ := h.onRaw (.stage .preprocess) .pop (BlockingQueue.popReady_of_closed hrawc)
    (PreprocessStep.callPop hpre) (by
      rw [BlockingQueue.body_pop_of_empty hraw]
      apply PreprocessStep.popEnds rfl)
  rw [BlockingQueue.body_pop_of_empty hraw] at h₁
  have h₂ := h₁.onTensor (.stage .inference) .pop (BlockingQueue.popReady_of_closed htensorc)
    (InferenceStep.callPop hinf) (by
      rw [BlockingQueue.body_pop_of_empty htensor]
      apply InferenceStep.popEnds rfl)
  rw [BlockingQueue.body_pop_of_empty htensor] at h₂
  have h₃ := h₂.onResult (.stage .post) .pop (BlockingQueue.popReady_of_closed hresultc)
    (PostStep.callPop hpost) (by
      rw [BlockingQueue.body_pop_of_empty hresult]
      apply PostStep.popEnds rfl)
  rw [BlockingQueue.body_pop_of_empty hresult] at h₃
  convert h₃ using 1
  rw [Core.left]
  congr 1
  funext k
  cases k <;> rfl

/-- `stop` clears the flag of a worker, whose thread then ends, and joins it. -/
theorem Resting.stopWorker (h : Resting P c rawq tensorq resultq) {k : Stage}
    (hp : c.control = .stopping k) (hw : c.worker k = ⟨true, some .test⟩) :
  Resting P ((c.setWorker k .idle).nextStop k) rawq tensorq resultq
  := by
  have hexit : ∀ {c : Core σ K}, (c.worker k).thread = some .test → (c.worker k).running = false →
      CoreStep P c (.stage k) .tau (c.setWorker k (c.worker k).test) := by
    intro c ht hr
    cases k with
    | preprocess => exact PreprocessStep.exit ht hr
    | inference => exact InferenceStep.exit ht hr
    | post => exact PostStep.exit ht hr
  have h₁ := h.tau .control (ControlStep.stopWins hp (by rw [hw]; rfl))
  have h₂ := h₁.tau (.stage k) (hexit (by simp [hw, Core.setWorker, Worker.exchange])
    (by simp [hw, Core.setWorker, Worker.exchange]))
  have h₃ := h₂.tau .control (ControlStep.joinable rfl
    (by simp [hw, Core.setWorker, Worker.exchange, Worker.test, Worker.joinable]))
  have h₄ := h₃.tau .control (ControlStep.join rfl
    (by simp [hw, Core.setWorker, Worker.exchange, Worker.test]))
  convert h₄ using 1
  simp [hw, Core.setWorker, Core.nextStop, Worker.exchange, Worker.test, Worker.join, Worker.idle]

/-- `stop` joins the workers once their threads have left their loops. -/
theorem Resting.stopWorkers (h : Resting P c rawq tensorq resultq)
    (hp : c.control = .stopping .preprocess) (hw : ∀ k, c.worker k = ⟨true, some .test⟩) :
  Resting P { c with
    control := .idle
    worker := fun _ => .idle
    lifecycle := c.lifecycle ++ [.stopped] } rawq tensorq resultq
  := by
  have h₁ := h.stopWorker hp (hw .preprocess)
  have h₂ := h₁.stopWorker rfl (hw .inference)
  have h₃ := h₂.stopWorker rfl (hw .post)
  convert h₃ using 1
  rw [Core.nextStop]
  congr 1
  funext k
  cases k <;> rfl

/-! ### Delivered windows -/

/-- A window of `kTargetLength` samples has a tensor. -/
theorem exists_tensorOf (P : Params K) {window : List (RawSample K)}
    (hlen : window.length = kTargetLength) :
  ∃ input, tensorOf P window = some input
  := by
  rw [← Option.isSome_iff_exists]
  apply tensorOf_isSome
  rintro rfl
  cases hlen

/-- Any window can be the first one delivered, with any answer of the engine. -/
theorem exists_delivered (P : Params K) (i : σ) {window : List (RawSample K)}
    (hlen : window.length = kTargetLength) (a : Answer K) :
  ∃ (c : Core σ K) (input : ModelInput K), Quiet P c ∧ tensorOf P window = some input
    ∧ c.windows = [window] ∧ c.inferred = [(input, a)]
    ∧ c.callbacks = [Classifier.classify P.exp (inferenceResult 1 a)]
  := by
  obtain ⟨input, htensor⟩ := exists_tensorOf P hlen
  have hw := quiet_started.window ready_started rfl i hlen htensor a
  exact ⟨_, input, hw, htensor, rfl, rfl, rfl⟩

omit [LinearOrder K] in
/-- A window of default-constructed samples. -/
def defaultWindow (K : Type) [Field K] : List (RawSample K) :=
  List.replicate kTargetLength (RawSample.default K)

omit [LinearOrder K] in
theorem length_defaultWindow :
  (defaultWindow K).length = kTargetLength
  := List.length_replicate

/-- Any number of windows can be delivered, with the same answer of the engine. -/
theorem exists_quiet (P : Params K) (i : σ) (a : Answer K) (n : ℕ) :
  ∃ c : Core σ K, Quiet P c ∧ c.Ready ∧ c.window_buffer = [] ∧ c.callbacks.length = n
  := by
  induction n with
  | zero =>
      exact ⟨Core.started σ K, quiet_started, ready_started, rfl, rfl⟩
  | succ n ih =>
      obtain ⟨c, h, hc, hbuffer, hlen⟩ := ih
      obtain ⟨input, htensor⟩ := exists_tensorOf P length_defaultWindow
      have hw := h.window hc hbuffer i length_defaultWindow htensor a
      refine ⟨_, hw, ⟨hc.1, hc.2, hc.3, hc.4, hc.5, hc.6⟩, hbuffer, ?_⟩
      rw [List.length_append, List.length_singleton, hlen]

/-- Parameters with exact conversions, queues of capacity 1, and an exponential function that
is right at 0. -/
def Params.small : Params ℚ where
  rounding := Rounding.exact ℚ
  exp := fun _ => .fin 1
  queue_capacity := 1
  capacity_pos := Nat.one_pos

/-- An answer of the engine with `kClassCount` logits. -/
def Answer.zeros : Answer ℚ :=
  ⟨true, .success, List.replicate kClassCount (.fin 0)⟩

theorem Answer.good_zeros :
  Answer.zeros.Good
  := ⟨rfl, rfl, le_of_eq List.length_replicate.symm⟩

/-- The core after the window of default-constructed samples has been delivered, with this
answer. -/
def Core.afterWindow (input : ModelInput ℚ) : Core Unit ℚ :=
  { Core.started Unit ℚ with
    windows := [defaultWindow ℚ]
    window_id := 1
    inferred := [(input, Answer.zeros)]
    callbacks := [Classifier.classify Params.small.exp (inferenceResult 1 Answer.zeros)] }

theorem ready_afterWindow (input : ModelInput ℚ) :
  (Core.afterWindow input).Ready
  := ⟨rfl, rfl, rfl, rfl, fun _ => rfl, rfl⟩

theorem exists_quiet_afterWindow :
  ∃ input, tensorOf Params.small (defaultWindow ℚ) = some input
    ∧ Quiet Params.small (Core.afterWindow input)
  := by
  obtain ⟨input, htensor⟩ := exists_tensorOf Params.small length_defaultWindow
  use input, htensor
  apply quiet_started.window ready_started rfl () length_defaultWindow htensor Answer.zeros

end Pipeline
