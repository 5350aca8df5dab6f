import PipeAI.Pipeline.BlockingQueue
import PipeAI.Pipeline.Worker
import PipeAI.Postprocess.Classifier
import PipeAI.Preprocess.Preprocessor

/-!
# The pipeline

The pipeline forms windows of samples, turns each into a tensor, runs the model on it, and
gives the classified result to a callback.  Three workers call the loops of the three stages;
three blocking queues connect `submit` to the first stage and each stage to the next.

A state consists of the three queues and of everything else (`Core`): the program counters,
the members of the pipeline, and a record of what has happened.  A step of the core is one
step of the loops, of `start` and `stop`, or of a `submit`, and says which queue operation it
calls or returns from, if any.  `Pipeline.system` puts the steps of the core and the steps
inside the queues together, in any interleaving.

One thread calls `start` and `stop`, in any order and any number of times; the threads `σ`
call `submit`.  The answers of the inference engine are arbitrary.
-/

namespace Pipeline

/-- The stages of the pipeline, in order.  A stage also stands for its worker and for the queue
it pops from. -/
inductive Stage where
  | preprocess
  | inference
  | post
  deriving DecidableEq

/-- The stage after a stage. -/
def Stage.next : Stage → Option Stage
  | .preprocess => some .inference
  | .inference => some .post
  | .post => none

/-- The threads: those of the workers, the one that calls `start` and `stop`, and those that
call `submit`. -/
inductive Thread (σ : Type) where
  | stage (k : Stage)
  | control
  | submitter (i : σ)
  deriving DecidableEq

/-- What the inference engine answers for a tensor: whether it is ready, the status of `infer`,
and the output `infer` leaves. -/
structure Answer (K : Type) where
  ready : Bool
  status : Status
  output : List (Flt K)

/-- The inference succeeds with at least `kClassCount` logits. -/
def Answer.Good {K : Type} (a : Answer K) : Prop :=
  a.ready = true ∧ a.status.ok = true ∧ kClassCount ≤ a.output.length

/-! ### Program counters -/

/-- Where the thread of the first stage is: outside of `preprocess_loop`; before or in its call
of `pop`; with an item, before it has the lock of the window; with the lock; past the
`push_back`; past the test of the size, with the local window; past the release of the lock;
before or in its call of `push`. -/
inductive PreprocessPc (K : Type) where
  | outside
  | pop
  | popping
  | item (sample : RawSample K)
  | locked (sample : RawSample K)
  | appended
  | swapped (local_window : List (RawSample K))
  | unlocked (local_window : List (RawSample K))
  | push (input : ModelInput K)
  | pushing (input : ModelInput K)

/-- Where the thread of the second stage is: outside of `inference_loop`; before or in its call
of `pop`; with an item; before or in its call of `push`. -/
inductive InferencePc (K : Type) where
  | outside
  | pop
  | popping
  | item (input : ModelInput K)
  | push (result : InferenceResult K)
  | pushing (result : InferenceResult K)

/-- Where the thread of the third stage is: outside of `post_loop`; before or in its call of
`pop`; with a result. -/
inductive PostPc (K : Type) where
  | outside
  | pop
  | popping
  | item (result : InferenceResult K)

/-- Where the thread that calls `start` and `stop` is: outside of both; in `start`, before the
exchange of the flag of a worker, or before the assignment of its thread, with the value of
`ok`; in `stop`, before or in the call of `close` for a queue, before the exchange of the
flag of a worker, before the test of its handle, or joining its thread. -/
inductive ControlPc where
  | idle
  | starting (k : Stage) (ok : Bool)
  | assigning (k : Stage) (ok : Bool)
  | close (k : Stage)
  | closing (k : Stage)
  | stopping (k : Stage)
  | testing (k : Stage)
  | joining (k : Stage)
  deriving DecidableEq

/-- The returns of `start` and `stop`. -/
inductive Event where
  | started (ok : Bool)
  | stopped
  deriving DecidableEq

/-! ### States -/

/-- The parameters of the pipeline: the conversions between floating-point types, the
exponential function, and the capacity of the queues. -/
structure Params (K : Type) [Field K] [LinearOrder K] where
  rounding : Rounding K
  exp : Flt K → Flt K
  queue_capacity : ℕ
  capacity_pos : 0 < queue_capacity

/-- Everything but the queues: the program counters and arguments of the threads, the workers,
`window_buffer_`, whether `window_mutex_` is locked, and `window_id_`; and the windows taken
from the buffer so far, the tensors inferred with the answers of the engine, the results
given to the callback, and the returns of `start` and `stop`. -/
structure Core (σ K : Type) where
  preprocess : PreprocessPc K
  inference : InferencePc K
  post : PostPc K
  control : ControlPc
  submitting : σ → Option (RawSample K)
  worker : Stage → Worker
  window_buffer : List (RawSample K)
  window_mutex : Bool
  window_id : UInt64
  windows : List (List (RawSample K))
  inferred : List (ModelInput K × Answer K)
  callbacks : List (InferenceResult K)
  lifecycle : List Event

/-- A state of the pipeline. -/
structure State (σ K : Type) where
  core : Core σ K
  raw_queue : BlockingQueue.State (Thread σ) (RawSample K)
  tensor_queue : BlockingQueue.State (Thread σ) (ModelInput K)
  result_queue : BlockingQueue.State (Thread σ) (InferenceResult K)

/-- A call of an operation of one of the queues. -/
inductive Call (K : Type) where
  | raw (op : BlockingQueue.Op (RawSample K))
  | tensor (op : BlockingQueue.Op (ModelInput K))
  | result (op : BlockingQueue.Op (InferenceResult K))

/-- A value returned by an operation of one of the queues. -/
inductive Return (K : Type) where
  | raw (r : BlockingQueue.Ret (RawSample K))
  | tensor (r : BlockingQueue.Ret (ModelInput K))
  | result (r : BlockingQueue.Ret (InferenceResult K))

/-- What a step of the core does with the queues: nothing, or it calls or returns from an
operation. -/
inductive Action (K : Type) where
  | tau
  | call (c : Call K)
  | ret (r : Return K)

/-- The call of `close` for the queue of a stage. -/
def Stage.closeCall {K : Type} : Stage → Call K
  | .preprocess => .raw .close
  | .inference => .tensor .close
  | .post => .result .close

/-- The return of `close` for the queue of a stage. -/
def Stage.closeReturn {K : Type} : Stage → Return K
  | .preprocess => .raw .closed
  | .inference => .tensor .closed
  | .post => .result .closed

variable {σ K : Type}

/-- The core with the worker of a stage replaced. -/
def Core.setWorker (c : Core σ K) (k : Stage) (w : Worker) : Core σ K :=
  { c with worker := Function.update c.worker k w }

/-- `start` goes on after the worker of a stage, or returns. -/
def Core.nextStart (c : Core σ K) (k : Stage) (ok : Bool) : Core σ K :=
  { c with
    control := match k.next with
      | some k' => .starting k' ok
      | none => .idle
    lifecycle := match k.next with
      | some _ => c.lifecycle
      | none => c.lifecycle ++ [.started ok] }

/-- `stop` goes on after the queue of a stage. -/
def Core.nextClose (c : Core σ K) (k : Stage) : Core σ K :=
  { c with
    control := match k.next with
      | some k' => .close k'
      | none => .stopping .preprocess }

/-- `stop` goes on after the worker of a stage, or returns. -/
def Core.nextStop (c : Core σ K) (k : Stage) : Core σ K :=
  { c with
    control := match k.next with
      | some k' => .stopping k'
      | none => .idle
    lifecycle := match k.next with
      | some _ => c.lifecycle
      | none => c.lifecycle ++ [.stopped] }

/-! ### The steps of the core -/

section Steps

variable [Field K] [LinearOrder K]

/-- `preprocess_loop`, called by its worker. -/
inductive PreprocessStep (P : Params K) : Core σ K → Action K → Core σ K → Prop where
  | enter {c : Core σ K} (hp : c.preprocess = .outside)
      (ht : (c.worker .preprocess).thread = some .test)
      (hr : (c.worker .preprocess).running = true) :
      PreprocessStep P c .tau
        { c.setWorker .preprocess (c.worker .preprocess).test with preprocess := .pop }
  | exit {c : Core σ K} (ht : (c.worker .preprocess).thread = some .test)
      (hr : (c.worker .preprocess).running = false) :
      PreprocessStep P c .tau (c.setWorker .preprocess (c.worker .preprocess).test)
  | callPop {c : Core σ K} (hp : c.preprocess = .pop) :
      PreprocessStep P c (.call (.raw .pop)) { c with preprocess := .popping }
  | popReturns {c : Core σ K} {sample : RawSample K} (hp : c.preprocess = .popping) :
      PreprocessStep P c (.ret (.raw (.popped (some sample))))
        { c with preprocess := .item sample }
  | popEnds {c : Core σ K} (hp : c.preprocess = .popping) :
      PreprocessStep P c (.ret (.raw (.popped none)))
        { c.setWorker .preprocess (c.worker .preprocess).loopReturns with
          preprocess := .outside }
  | lock {c : Core σ K} {sample : RawSample K} (hp : c.preprocess = .item sample)
      (hm : c.window_mutex = false) :
      PreprocessStep P c .tau { c with window_mutex := true, preprocess := .locked sample }
  | append {c : Core σ K} {sample : RawSample K} (hp : c.preprocess = .locked sample) :
      PreprocessStep P c .tau
        { c with window_buffer := c.window_buffer ++ [sample], preprocess := .appended }
  | swap {c : Core σ K} (hp : c.preprocess = .appended)
      (hsize : kTargetLength ≤ c.window_buffer.length) :
      PreprocessStep P c .tau
        { c with
          window_buffer := []
          windows := c.windows ++ [c.window_buffer]
          preprocess := .swapped c.window_buffer }
  | noSwap {c : Core σ K} (hp : c.preprocess = .appended)
      (hsize : c.window_buffer.length < kTargetLength) :
      PreprocessStep P c .tau { c with preprocess := .swapped [] }
  | unlock {c : Core σ K} {local_window : List (RawSample K)}
      (hp : c.preprocess = .swapped local_window) :
      PreprocessStep P c .tau
        { c with window_mutex := false, preprocess := .unlocked local_window }
  | skip {c : Core σ K} (hp : c.preprocess = .unlocked []) :
      PreprocessStep P c .tau { c with preprocess := .pop }
  | run {c : Core σ K} {local_window : List (RawSample K)} {input : ModelInput K}
      {report : Option PreprocessReport} {status : Status}
      (hp : c.preprocess = .unlocked local_window) (hw : local_window ≠ [])
      (hrun : Preprocessor.run P.rounding (PreprocessOptions.default K) local_window
        (ModelInput.zero K) none = some (status, input, report)) :
      PreprocessStep P c .tau
        { c with preprocess := if status.ok then .push input else .pop }
  | callPush {c : Core σ K} {input : ModelInput K} (hp : c.preprocess = .push input) :
      PreprocessStep P c (.call (.tensor (.push input))) { c with preprocess := .pushing input }
  | pushReturns {c : Core σ K} {input : ModelInput K} {accepted : Bool}
      (hp : c.preprocess = .pushing input) :
      PreprocessStep P c (.ret (.tensor (.pushed accepted))) { c with preprocess := .pop }

/-- The result that `inference_loop` fills for an answer of the engine. -/
def inferenceResult (window_id : UInt64) (a : Answer K) : InferenceResult K :=
  { InferenceResult.default K with
    window_id := window_id
    logits := fun i =>
      if a.ready && a.status.ok then (a.output[(i : ℕ)]?).getD (.fin 0) else .fin 0 }

omit [LinearOrder K] in
/-- `inference_loop`, called by its worker. -/
inductive InferenceStep : Core σ K → Action K → Core σ K → Prop where
  | enter {c : Core σ K} (hp : c.inference = .outside)
      (ht : (c.worker .inference).thread = some .test)
      (hr : (c.worker .inference).running = true) :
      InferenceStep c .tau
        { c.setWorker .inference (c.worker .inference).test with inference := .pop }
  | exit {c : Core σ K} (ht : (c.worker .inference).thread = some .test)
      (hr : (c.worker .inference).running = false) :
      InferenceStep c .tau (c.setWorker .inference (c.worker .inference).test)
  | callPop {c : Core σ K} (hp : c.inference = .pop) :
      InferenceStep c (.call (.tensor .pop)) { c with inference := .popping }
  | popReturns {c : Core σ K} {input : ModelInput K} (hp : c.inference = .popping) :
      InferenceStep c (.ret (.tensor (.popped (some input)))) { c with inference := .item input }
  | popEnds {c : Core σ K} (hp : c.inference = .popping) :
      InferenceStep c (.ret (.tensor (.popped none)))
        { c.setWorker .inference (c.worker .inference).loopReturns with inference := .outside }
  | infer {c : Core σ K} {input : ModelInput K} (hp : c.inference = .item input)
      (a : Answer K) :
      InferenceStep c .tau
        { c with
          window_id := c.window_id + 1
          inferred := c.inferred ++ [(input, a)]
          inference := .push (inferenceResult (c.window_id + 1) a) }
  | callPush {c : Core σ K} {result : InferenceResult K} (hp : c.inference = .push result) :
      InferenceStep c (.call (.result (.push result))) { c with inference := .pushing result }
  | pushReturns {c : Core σ K} {result : InferenceResult K} {accepted : Bool}
      (hp : c.inference = .pushing result) :
      InferenceStep c (.ret (.result (.pushed accepted))) { c with inference := .pop }

/-- `post_loop`, called by its worker, with a callback that returns. -/
inductive PostStep (P : Params K) : Core σ K → Action K → Core σ K → Prop where
  | enter {c : Core σ K} (hp : c.post = .outside)
      (ht : (c.worker .post).thread = some .test)
      (hr : (c.worker .post).running = true) :
      PostStep P c .tau { c.setWorker .post (c.worker .post).test with post := .pop }
  | exit {c : Core σ K} (ht : (c.worker .post).thread = some .test)
      (hr : (c.worker .post).running = false) :
      PostStep P c .tau (c.setWorker .post (c.worker .post).test)
  | callPop {c : Core σ K} (hp : c.post = .pop) :
      PostStep P c (.call (.result .pop)) { c with post := .popping }
  | popReturns {c : Core σ K} {result : InferenceResult K} (hp : c.post = .popping) :
      PostStep P c (.ret (.result (.popped (some result)))) { c with post := .item result }
  | popEnds {c : Core σ K} (hp : c.post = .popping) :
      PostStep P c (.ret (.result (.popped none)))
        { c.setWorker .post (c.worker .post).loopReturns with post := .outside }
  | callback {c : Core σ K} {result : InferenceResult K} (hp : c.post = .item result) :
      PostStep P c .tau
        { c with
          callbacks := c.callbacks ++ [Classifier.classify P.exp result]
          post := .pop }

omit [Field K] [LinearOrder K] in
/-- `start` and `stop`. -/
inductive ControlStep : Core σ K → Action K → Core σ K → Prop where
  | invokeStart {c : Core σ K} (hp : c.control = .idle) :
      ControlStep c .tau { c with control := .starting .preprocess true }
  | startLoses {c : Core σ K} {k : Stage} {ok : Bool} (hp : c.control = .starting k ok)
      (hx : ((c.worker k).exchange true).1 = true) :
      ControlStep c .tau ((c.setWorker k ((c.worker k).exchange true).2).nextStart k false)
  | startWins {c : Core σ K} {k : Stage} {ok : Bool} (hp : c.control = .starting k ok)
      (hx : ((c.worker k).exchange true).1 = false) :
      ControlStep c .tau
        { c.setWorker k ((c.worker k).exchange true).2 with control := .assigning k ok }
  | assign {c : Core σ K} {k : Stage} {ok : Bool} {w : Worker}
      (hp : c.control = .assigning k ok) (hw : (c.worker k).assign = some w) :
      ControlStep c .tau ((c.setWorker k w).nextStart k ok)
  | invokeStop {c : Core σ K} (hp : c.control = .idle) :
      ControlStep c .tau { c with control := .close .preprocess }
  | callClose {c : Core σ K} {k : Stage} (hp : c.control = .close k) :
      ControlStep c (.call k.closeCall) { c with control := .closing k }
  | closeReturns {c : Core σ K} {k : Stage} (hp : c.control = .closing k) :
      ControlStep c (.ret k.closeReturn) (c.nextClose k)
  | stopLoses {c : Core σ K} {k : Stage} (hp : c.control = .stopping k)
      (hx : ((c.worker k).exchange false).1 = false) :
      ControlStep c .tau ((c.setWorker k ((c.worker k).exchange false).2).nextStop k)
  | stopWins {c : Core σ K} {k : Stage} (hp : c.control = .stopping k)
      (hx : ((c.worker k).exchange false).1 = true) :
      ControlStep c .tau
        { c.setWorker k ((c.worker k).exchange false).2 with control := .testing k }
  | notJoinable {c : Core σ K} {k : Stage} (hp : c.control = .testing k)
      (hj : (c.worker k).joinable = false) : ControlStep c .tau (c.nextStop k)
  | joinable {c : Core σ K} {k : Stage} (hp : c.control = .testing k)
      (hj : (c.worker k).joinable = true) :
      ControlStep c .tau { c with control := .joining k }
  | join {c : Core σ K} {k : Stage} (hp : c.control = .joining k)
      (hx : (c.worker k).thread = some .exited) :
      ControlStep c .tau ((c.setWorker k (c.worker k).join).nextStop k)

variable [DecidableEq σ]

omit [Field K] [LinearOrder K] in
/-- `submit`, called by the thread `i`. -/
inductive SubmitStep (i : σ) : Core σ K → Action K → Core σ K → Prop where
  | submit {c : Core σ K} (hp : c.submitting i = none) (sample : RawSample K) :
      SubmitStep i c (.call (.raw (.push sample)))
        { c with submitting := Function.update c.submitting i (some sample) }
  | submitReturns {c : Core σ K} {sample : RawSample K} {accepted : Bool}
      (hp : c.submitting i = some sample) :
      SubmitStep i c (.ret (.raw (.pushed accepted)))
        { c with submitting := Function.update c.submitting i none }

/-- The steps of the core. -/
def CoreStep (P : Params K) (c : Core σ K) : Thread σ → Action K → Core σ K → Prop
  | .stage .preprocess => PreprocessStep P c
  | .stage .inference => InferenceStep c
  | .stage .post => PostStep P c
  | .control => ControlStep c
  | .submitter i => SubmitStep i c

/-! ### The system -/

/-- The steps of the pipeline, labelled by the acting thread: a step of the core that leaves the
queues, one that calls or returns from an operation of a queue, or a step inside a queue. -/
inductive Step (P : Params K) : State σ K → Thread σ → State σ K → Prop where
  | tau {s : State σ K} {t : Thread σ} {c : Core σ K} (h : CoreStep P s.core t .tau c) :
      Step P s t { s with core := c }
  | rawCall {s : State σ K} {t : Thread σ} {c : Core σ K} {op : BlockingQueue.Op (RawSample K)}
      (h : CoreStep P s.core t (.call (.raw op)) c) (hp : s.raw_queue.phase t = .idle) :
      Step P s t { s with core := c, raw_queue := s.raw_queue.call t op }
  | rawReturn {s : State σ K} {t : Thread σ} {c : Core σ K}
      {r : BlockingQueue.Ret (RawSample K)} (h : CoreStep P s.core t (.ret (.raw r)) c)
      (hp : s.raw_queue.phase t = .leaving r []) :
      Step P s t { s with core := c, raw_queue := s.raw_queue.ret t }
  | raw {s : State σ K} {t : Thread σ} {q : BlockingQueue.State (Thread σ) (RawSample K)}
      (h : (BlockingQueue.monitor _).Internal s.raw_queue t q) :
      Step P s t { s with raw_queue := q }
  | tensorCall {s : State σ K} {t : Thread σ} {c : Core σ K}
      {op : BlockingQueue.Op (ModelInput K)} (h : CoreStep P s.core t (.call (.tensor op)) c)
      (hp : s.tensor_queue.phase t = .idle) :
      Step P s t { s with core := c, tensor_queue := s.tensor_queue.call t op }
  | tensorReturn {s : State σ K} {t : Thread σ} {c : Core σ K}
      {r : BlockingQueue.Ret (ModelInput K)} (h : CoreStep P s.core t (.ret (.tensor r)) c)
      (hp : s.tensor_queue.phase t = .leaving r []) :
      Step P s t { s with core := c, tensor_queue := s.tensor_queue.ret t }
  | tensor {s : State σ K} {t : Thread σ} {q : BlockingQueue.State (Thread σ) (ModelInput K)}
      (h : (BlockingQueue.monitor _).Internal s.tensor_queue t q) :
      Step P s t { s with tensor_queue := q }
  | resultCall {s : State σ K} {t : Thread σ} {c : Core σ K}
      {op : BlockingQueue.Op (InferenceResult K)}
      (h : CoreStep P s.core t (.call (.result op)) c) (hp : s.result_queue.phase t = .idle) :
      Step P s t { s with core := c, result_queue := s.result_queue.call t op }
  | resultReturn {s : State σ K} {t : Thread σ} {c : Core σ K}
      {r : BlockingQueue.Ret (InferenceResult K)}
      (h : CoreStep P s.core t (.ret (.result r)) c)
      (hp : s.result_queue.phase t = .leaving r []) :
      Step P s t { s with core := c, result_queue := s.result_queue.ret t }
  | result {s : State σ K} {t : Thread σ}
      {q : BlockingQueue.State (Thread σ) (InferenceResult K)}
      (h : (BlockingQueue.monitor _).Internal s.result_queue t q) :
      Step P s t { s with result_queue := q }

omit [Field K] [LinearOrder K] [DecidableEq σ] in
/-- The core of a pipeline that has just been constructed. -/
def Core.initial (σ K : Type) : Core σ K where
  preprocess := .outside
  inference := .outside
  post := .outside
  control := .idle
  submitting := fun _ => none
  worker := fun _ => .idle
  window_buffer := []
  window_mutex := false
  window_id := 0
  windows := []
  inferred := []
  callbacks := []
  lifecycle := []

omit [DecidableEq σ] in
/-- A pipeline that has just been constructed. -/
def State.initial (σ : Type) (P : Params K) : State σ K where
  core := .initial σ K
  raw_queue := Monitor.initial _ _ _ _ (.empty _ P.queue_capacity P.capacity_pos)
  tensor_queue := Monitor.initial _ _ _ _ (.empty _ P.queue_capacity P.capacity_pos)
  result_queue := Monitor.initial _ _ _ _ (.empty _ P.queue_capacity P.capacity_pos)

/-- The runs of the pipeline. -/
def system (σ : Type) [DecidableEq σ] (P : Params K) : TransitionSystem (State σ K) (Thread σ) where
  Init s := s = .initial σ P
  Step := Step P

/-! ### Tensors -/

/-- The tensor of a window, if the preprocessing succeeds. -/
def tensorOf (P : Params K) (window : List (RawSample K)) : Option (ModelInput K) :=
  match Preprocessor.run P.rounding (PreprocessOptions.default K) window (ModelInput.zero K)
      none with
  | some (status, input, _) => if status.ok then some input else none
  | none => none

/-- The preprocessing of a window that is not empty succeeds. -/
theorem tensorOf_isSome (P : Params K) {window : List (RawSample K)} (h : window ≠ []) :
  (tensorOf P window).isSome = true
  := by
  obtain ⟨input, report, hrun⟩ := Preprocessor.run_isSome P.rounding h
    (rfl : (PreprocessOptions.default K).sensor_min.isFinite = true) (ModelInput.zero K) none
  rw [tensorOf, hrun]
  rfl

/-- The tensor of a window is what the preprocessing leaves when it succeeds. -/
theorem run_of_tensorOf {P : Params K} {window : List (RawSample K)} {input : ModelInput K}
    (h : tensorOf P window = some input) :
  ∃ status report, Preprocessor.run P.rounding (PreprocessOptions.default K) window
      (ModelInput.zero K) none = some (status, input, report) ∧ status.ok = true
  := by
  rw [tensorOf] at h
  split at h
  · rename_i status _ report hrun
    split at h
    · cases h
      use status, report
    · cases h
  · cases h

end Steps

end Pipeline
