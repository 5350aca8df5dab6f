import PipeAI.Model.RknnEngine
import PipeAI.Pipeline.Pipeline
import PipeAI.Runtime.Application

/-!
# The program

The program as a whole: `main` loads the configuration, `Application::initialize` loads it again,
constructs the pipeline, starts it, and submits the samples of a file to it, `Application::run` goes
round until `running_` is cleared, and `Application::shutdown` stops the pipeline.  All of this is
done by one thread, while the threads of the workers take their steps in the pipeline, with the
engine the pipeline has.

The settings of the logger and its messages are left out, and the destructors.
-/

namespace App

/-! ### What the program finds -/

/-- What the program finds: the type of floats that is read, the path of the configuration, the file
there when `main` loads it and when `Application::initialize` does, the lines of the files of
samples that can be opened, the rounding, and the exponential function. -/
structure Inputs where
  F : FloatType
  path : String
  bootFile : Option Text
  file : Option Text
  files : Text → Option (List Text)
  rounding : Rounding ℚ
  exp : Flt ℚ → Flt ℚ

/-- The status and the configuration that `main` gets. -/
def Inputs.booted (I : Inputs) : Status × Config :=
  Config.cleared.load I.path I.bootFile

/-- The status and the configuration that `Application::initialize` gets. -/
def Inputs.loaded (I : Inputs) : Status × Config :=
  Application.default.config.load I.path I.file

/-- The capacity of the queues. -/
def Inputs.capacity (I : Inputs) : UInt64 :=
  I.loaded.2.getSize Application.capacityKey 1024

/-- The lines of the file of samples, if there is one. -/
def Inputs.replayFile (I : Inputs) : Option (List Text) :=
  let csv := I.loaded.2.getString "sensor.csv".toList []
  if csv.isEmpty then none else I.files csv

/-- The samples of the file of samples. -/
def Inputs.replayed (I : Inputs) : List (RawSample ℚ) :=
  match I.replayFile with
  | none => []
  | some file => CsvSensor.replay I.F file (RawSample.default ℚ)

theorem Inputs.capacity_toNat_pos {I : Inputs} (h : I.capacity ≠ 0) :
  0 < I.capacity.toNat
  := by
  apply Nat.pos_of_ne_zero
  intro hzero
  apply h
  rw [← UInt64.toNat_inj, hzero]
  rfl

/-- The parameters of the pipeline, when it can be constructed. -/
def Inputs.params (I : Inputs) (h : I.capacity ≠ 0) : Pipeline.Params ℚ where
  rounding := I.rounding
  exp := I.exp
  queue_capacity := I.capacity.toNat
  capacity_pos := Inputs.capacity_toNat_pos h

/-- The steps of the pipeline. -/
def Inputs.PipelineStep (I : Inputs) (p : Pipeline.State Unit ℚ) (t : Pipeline.Thread Unit)
    (p' : Pipeline.State Unit ℚ) : Prop :=
  ∃ h, Pipeline.Step (I.params h) p t p'

/-! ### States -/

/-- Where the thread of `main` is: before `config.load`; before `app.initialize`; before or in
`pipeline_->start()`; past `running_ = true`; before `sensor.read`, with the lines that are left and
the sample; past a read that succeeded, before the test of `running_`; in `pipeline_->submit`; in
the loop of `app.run()`; before or in the `pipeline_->stop()` of `app.shutdown()`; past the return
of `main`; past a call of `std::terminate`. -/
inductive Pc where
  | boot
  | initializing
  | start
  | starting
  | started
  | reading (file : List Text) (sample : RawSample ℚ)
  | read (file : List Text) (sample : RawSample ℚ)
  | submitting (file : List Text) (sample : RawSample ℚ)
  | looping
  | stop
  | stopping
  | exited (code : ℕ)
  | terminated

/-- The process has ended. -/
def Pc.Ended : Pc → Prop
  | .exited _ => True
  | .terminated => True
  | _ => False

/-- A state of the program: where the thread of `main` is, `running_`, the engine of the pipeline,
and the pipeline, once it has been constructed. -/
structure State where
  pc : Pc
  running : Bool
  engine : RknnEngine
  pipeline : Option (Pipeline.State Unit ℚ)

/-- The program before its first step. -/
def State.initial : State where
  pc := .boot
  running := false
  engine := .default
  pipeline := none

/-- The threads: that of `main`, and those of the workers. -/
inductive Thread where
  | main
  | stage (k : Pipeline.Stage)

/-! ### Steps -/

/-- If a tensor is inferred in a step of the pipeline, the answer is that of the engine: whether it is
ready, and, if it is, what `infer` gives. -/
def Answered (engine : RknnEngine) (p p' : Pipeline.State Unit ℚ) : Prop :=
  ∀ input a, p'.core.inferred = p.core.inferred ++ [(input, a)] → a.ready = engine.initialized
    ∧ (a.ready = true →
      ∃ answer, RknnEngine.infer engine answer input [] = some (a.status, a.output))

/-- The steps of the program. -/
inductive Step (I : Inputs) : State → Thread → State → Prop where
  | bootFails {s : State} (hp : s.pc = .boot) (hload : I.booted.1.ok = false) :
      Step I s .main { s with pc := .exited 1 }
  | boots {s : State} (hp : s.pc = .boot) (hload : I.booted.1.ok = true) :
      Step I s .main { s with pc := .initializing }
  | loadFails {s : State} (hp : s.pc = .initializing) (hload : I.loaded.1.ok = false) :
      Step I s .main { s with pc := .exited 1 }
  | throws {s : State} (hp : s.pc = .initializing) (hload : I.loaded.1.ok = true)
      (hzero : I.capacity = 0) : Step I s .main { s with pc := .terminated }
  | constructs {s : State} (hp : s.pc = .initializing) (hload : I.loaded.1.ok = true)
      (hne : I.capacity ≠ 0) :
      Step I s .main
        { s with
          pc := .start
          engine := .default
          pipeline := some (.initial Unit (I.params hne)) }
  | callStart {s : State} {p p' : Pipeline.State Unit ℚ} (hp : s.pc = .start)
      (hs : s.pipeline = some p) (hstep : I.PipelineStep p .control p')
      (hcall : p'.core.control = .starting .preprocess true) :
      Step I s .main { s with pc := .starting, pipeline := some p' }
  | starts {s : State} {p p' : Pipeline.State Unit ℚ} (hp : s.pc = .starting)
      (hs : s.pipeline = some p) (hstep : I.PipelineStep p .control p')
      (hin : p'.core.control ≠ .idle) : Step I s .main { s with pipeline := some p' }
  | startReturns {s : State} {p p' : Pipeline.State Unit ℚ} (hp : s.pc = .starting)
      (hs : s.pipeline = some p) (hstep : I.PipelineStep p .control p')
      (hidle : p'.core.control = .idle)
      (hok : p'.core.lifecycle.getLast? = some (.started true)) :
      Step I s .main { s with pc := .started, running := true, pipeline := some p' }
  | startFails {s : State} {p p' : Pipeline.State Unit ℚ} (hp : s.pc = .starting)
      (hs : s.pipeline = some p) (hstep : I.PipelineStep p .control p')
      (hidle : p'.core.control = .idle)
      (hok : p'.core.lifecycle.getLast? = some (.started false)) :
      Step I s .main { s with pc := .exited 1, pipeline := some p' }
  | noReplay {s : State} (hp : s.pc = .started) (hfile : I.replayFile = none) :
      Step I s .main { s with pc := .looping }
  | opens {s : State} {file : List Text} (hp : s.pc = .started)
      (hfile : I.replayFile = some file) :
      Step I s .main { s with pc := .reading file (RawSample.default ℚ) }
  | reads {s : State} {file rest : List Text} {sample sample' : RawSample ℚ}
      (hp : s.pc = .reading file sample)
      (hread : CsvSensor.read I.F file sample = (true, rest, sample')) :
      Step I s .main { s with pc := .read rest sample' }
  | readFails {s : State} {file : List Text} {sample : RawSample ℚ}
      (hp : s.pc = .reading file sample)
      (hread : (CsvSensor.read I.F file sample).1 = false) :
      Step I s .main { s with pc := .looping }
  | leavesReplay {s : State} {file : List Text} {sample : RawSample ℚ}
      (hp : s.pc = .read file sample) (hr : s.running = false) :
      Step I s .main { s with pc := .looping }
  | callSubmit {s : State} {p p' : Pipeline.State Unit ℚ} {file : List Text}
      {sample : RawSample ℚ} (hp : s.pc = .read file sample) (hr : s.running = true)
      (hs : s.pipeline = some p) (hstep : I.PipelineStep p (.submitter ()) p')
      (hcall : p'.core.submitting () = some sample) :
      Step I s .main { s with pc := .submitting file sample, pipeline := some p' }
  | submits {s : State} {p p' : Pipeline.State Unit ℚ} {file : List Text} {sample : RawSample ℚ}
      (hp : s.pc = .submitting file sample) (hs : s.pipeline = some p)
      (hstep : I.PipelineStep p (.submitter ()) p')
      (hin : p'.core.submitting () ≠ none) : Step I s .main { s with pipeline := some p' }
  | submitReturns {s : State} {p p' : Pipeline.State Unit ℚ} {file : List Text}
      {sample : RawSample ℚ} (hp : s.pc = .submitting file sample) (hs : s.pipeline = some p)
      (hstep : I.PipelineStep p (.submitter ()) p')
      (hret : p'.core.submitting () = none) :
      Step I s .main { s with pc := .reading file sample, pipeline := some p' }
  | leavesRun {s : State} (hp : s.pc = .looping) (hr : s.running = false) :
      Step I s .main { s with pc := .stop }
  | callStop {s : State} {p p' : Pipeline.State Unit ℚ} (hp : s.pc = .stop)
      (hs : s.pipeline = some p) (hstep : I.PipelineStep p .control p')
      (hcall : p'.core.control = .close .preprocess) :
      Step I s .main { s with pc := .stopping, pipeline := some p' }
  | stops {s : State} {p p' : Pipeline.State Unit ℚ} (hp : s.pc = .stopping)
      (hs : s.pipeline = some p) (hstep : I.PipelineStep p .control p')
      (hin : p'.core.control ≠ .idle) : Step I s .main { s with pipeline := some p' }
  | stopReturns {s : State} {p p' : Pipeline.State Unit ℚ} (hp : s.pc = .stopping)
      (hs : s.pipeline = some p) (hstep : I.PipelineStep p .control p')
      (hidle : p'.core.control = .idle) :
      Step I s .main { s with pc := .exited 0, pipeline := some p' }
  | stage {s : State} {p p' : Pipeline.State Unit ℚ} {k : Pipeline.Stage}
      (halive : ¬ s.pc.Ended) (hs : s.pipeline = some p)
      (hstep : I.PipelineStep p (.stage k) p') (hanswer : Answered s.engine p p') :
      Step I s (.stage k) { s with pipeline := some p' }

/-- The runs of the program. -/
def system (I : Inputs) : TransitionSystem State Thread where
  Init s := s = .initial
  Step := Step I

/-- The thread of the pipeline that takes the step, if it is a step of the pipeline. -/
def State.actor (s : State) : Thread → Option (Pipeline.Thread Unit)
  | .stage k => some (.stage k)
  | .main =>
      match s.pc with
      | .start => some .control
      | .starting => some .control
      | .read _ _ => if s.running then some (.submitter ()) else none
      | .submitting _ _ => some (.submitter ())
      | .stop => some .control
      | .stopping => some .control
      | _ => none

/-- The pipeline takes a step of the thread that acts, or stays as it is. -/
def Inputs.Projects (I : Inputs) (p : Pipeline.State Unit ℚ) (actor : Option (Pipeline.Thread Unit))
    (p' : Pipeline.State Unit ℚ) : Prop :=
  match actor with
  | some t => I.PipelineStep p t p'
  | none => p' = p

/-- What a step of the program does to the pipeline, once it has been constructed. -/
theorem Step.projects {I : Inputs} {s s' : State} {t : Thread} (h : Step I s t s')
    (hpc : s.pc ≠ .initializing) {p : Pipeline.State Unit ℚ} (hs : s.pipeline = some p) :
  ∃ p', s'.pipeline = some p' ∧ I.Projects p (s.actor t) p'
  := by
  cases h with
  | constructs hp => apply absurd hp hpc
  | bootFails hp => exact ⟨p, hs, by rw [State.actor, hp]; rfl⟩
  | boots hp => exact ⟨p, hs, by rw [State.actor, hp]; rfl⟩
  | loadFails hp => apply absurd hp hpc
  | throws hp => apply absurd hp hpc
  | noReplay hp => exact ⟨p, hs, by rw [State.actor, hp]; rfl⟩
  | opens hp => exact ⟨p, hs, by rw [State.actor, hp]; rfl⟩
  | reads hp => exact ⟨p, hs, by rw [State.actor, hp]; rfl⟩
  | readFails hp => exact ⟨p, hs, by rw [State.actor, hp]; rfl⟩
  | leavesRun hp => exact ⟨p, hs, by rw [State.actor, hp]; rfl⟩
  | leavesReplay hp hr => exact ⟨p, hs, by simp [State.actor, hp, hr, Inputs.Projects]⟩
  | callSubmit hp hr hs' hstep =>
      cases hs.symm.trans hs'
      exact ⟨_, rfl, by simpa [State.actor, hp, hr, Inputs.Projects] using hstep⟩
  | stage halive hs' hstep =>
      cases hs.symm.trans hs'
      exact ⟨_, rfl, hstep⟩
  | callStart hp hs' hstep =>
      cases hs.symm.trans hs'
      exact ⟨_, rfl, by rw [State.actor, hp]; exact hstep⟩
  | starts hp hs' hstep =>
      cases hs.symm.trans hs'
      exact ⟨_, rfl, by rw [State.actor, hp]; exact hstep⟩
  | startReturns hp hs' hstep =>
      cases hs.symm.trans hs'
      exact ⟨_, rfl, by rw [State.actor, hp]; exact hstep⟩
  | startFails hp hs' hstep =>
      cases hs.symm.trans hs'
      exact ⟨_, rfl, by rw [State.actor, hp]; exact hstep⟩
  | submits hp hs' hstep =>
      cases hs.symm.trans hs'
      exact ⟨_, rfl, by rw [State.actor, hp]; exact hstep⟩
  | submitReturns hp hs' hstep =>
      cases hs.symm.trans hs'
      exact ⟨_, rfl, by rw [State.actor, hp]; exact hstep⟩
  | callStop hp hs' hstep =>
      cases hs.symm.trans hs'
      exact ⟨_, rfl, by rw [State.actor, hp]; exact hstep⟩
  | stops hp hs' hstep =>
      cases hs.symm.trans hs'
      exact ⟨_, rfl, by rw [State.actor, hp]; exact hstep⟩
  | stopReturns hp hs' hstep =>
      cases hs.symm.trans hs'
      exact ⟨_, rfl, by rw [State.actor, hp]; exact hstep⟩

end App
