import PipeAI.App.Main
import PipeAI.Pipeline.Launch
import PipeAI.Pipeline.Submission
import PipeAI.Pipeline.Decisions
import PipeAI.Postprocess.SoftmaxDecision

/-!
# What the program does

At each point of `main` the pipeline is in a state of a known kind (`State.Holds`): `start` has
returned true, `stop` is not called, and the samples accepted are those of the lines read so far
(`holds_of_reachable`).  No model is loaded into the engine of the pipeline, and so no tensor is
answered (`unready_of_reachable`).
-/

namespace Pipeline

variable {K : Type} [Field K] [LinearOrder K] {P : Params K}

/-- Where only one thread submits, the steps of the others leave its call, and the samples
accepted. -/
theorem Step.submission_of_ne {s s' : State Unit K} {t : Thread Unit} (h : Step P s t s')
    (hs : (system Unit P).Reachable s) (ht : t ≠ .submitter ()) :
  s'.core.submitting () = s.core.submitting ()
    ∧ BlockingQueue.accepted s'.raw_queue.log = BlockingQueue.accepted s.raw_queue.log
  := by
  constructor
  · obtain ⟨a, hc, -⟩ | ⟨hcore, -⟩ := h.cases
    · apply submitting_of_calls hc.calls ht
    · rw [hcore]
  · obtain ⟨x, hx⟩ | hq := h.touches.1
    · rw [hx.same.2]
    · obtain hsilent | ⟨op, r, heffect⟩ := hq.cases
      · rw [hsilent.log]
      · apply BlockingQueue.accepted_of_effect (synced_of_reachable hs).rawPushes ht heffect

/-- Outside of the calls of the queues, the thread that calls `start` and `stop` takes steps of the
core only. -/
theorem Step.control_of_calling {s s' : State Unit K} (h : Step P s .control s') (hs : Synced s)
    (hcalling : s.core.calling .control = none) :
  ∃ a, ControlStep s.core a s'.core
  := by
  obtain ⟨hraw, htensor, hresult⟩ := hs.idle_of_calling hcalling
  obtain ⟨a, hc, -⟩ | ⟨-, ⟨hq, -⟩ | ⟨hq, -⟩ | ⟨hq, -⟩⟩ := h.cases
  · exact ⟨a, hc⟩
  · apply absurd hraw hq.ne_idle
  · apply absurd htensor hq.ne_idle
  · apply absurd hresult hq.ne_idle

/-- The steps of the other threads leave the calls of `start` and `stop`. -/
theorem Step.control_of_ne {s s' : State Unit K} {t : Thread Unit} (h : Step P s t s')
    (ht : t ≠ .control) :
  s'.core.control = s.core.control ∧ s'.core.lifecycle = s.core.lifecycle
  := by
  obtain ⟨hcontrol, hlife, -⟩ := h.control_cases.resolve_left (fun hin => ht hin.1)
  exact ⟨hcontrol, hlife⟩

end Pipeline

namespace App

variable {I : Inputs}

/-! ### The pipeline between calls -/

/-- No call of `start`, `stop` or `submit` is in progress, those of `start` and `stop` have returned
as `life` says, and the samples `A` have been accepted. -/
structure Between (I : Inputs) (life : List Pipeline.Event) (A : List (RawSample ℚ))
    (p : Pipeline.State Unit ℚ) : Prop where
  reachable : ∃ h, (Pipeline.system Unit (I.params h)).Reachable p
  control : p.core.control = .idle
  lifecycle : p.core.lifecycle = life
  submitting : p.core.submitting () = none
  accepted : BlockingQueue.accepted p.raw_queue.log = A

/-- The steps of the workers leave the pipeline between calls. -/
theorem Between.stage {life : List Pipeline.Event} {A : List (RawSample ℚ)}
    {p p' : Pipeline.State Unit ℚ} {k : Pipeline.Stage} (h : Between I life A p)
    (hstep : I.PipelineStep p (.stage k) p') :
  Between I life A p'
  := by
  obtain ⟨hne, hs⟩ := h.reachable
  obtain ⟨_, hstep⟩ := hstep
  obtain ⟨hcontrol, hlife⟩ := hstep.control_of_ne (by simp)
  obtain ⟨hsubmitting, haccepted⟩ := hstep.submission_of_ne hs (by simp)
  exact ⟨⟨hne, hs.step hstep⟩, hcontrol.trans h.control, hlife.trans h.lifecycle,
    hsubmitting.trans h.submitting, haccepted.trans h.accepted⟩

/-- `start` is in progress for the first time. -/
structure Launching (I : Inputs) (p : Pipeline.State Unit ℚ) : Prop where
  reachable : ∃ h, (Pipeline.system Unit (I.params h)).Reachable p
  launching : p.core.Launching
  lifecycle : p.core.lifecycle = []
  submitting : p.core.submitting () = none
  accepted : BlockingQueue.accepted p.raw_queue.log = []

/-- The steps of the workers leave `start` in progress. -/
theorem Launching.stage {p p' : Pipeline.State Unit ℚ} {k : Pipeline.Stage} (h : Launching I p)
    (hstep : I.PipelineStep p (.stage k) p') :
  Launching I p' ∧ p'.core.control = p.core.control
  := by
  obtain ⟨hne, hs⟩ := h.reachable
  obtain ⟨_, hstep⟩ := hstep
  obtain ⟨hcontrol, hlife⟩ := hstep.control_of_ne (by simp)
  obtain ⟨hsubmitting, haccepted⟩ := hstep.submission_of_ne hs (by simp)
  exact ⟨⟨⟨hne, hs.step hstep⟩, h.launching.other hs hstep (by simp), hlife.trans h.lifecycle,
    hsubmitting.trans h.submitting, haccepted.trans h.accepted⟩, hcontrol⟩

/-- With a step of its own, `start` goes on, or returns true. -/
theorem Launching.control {p p' : Pipeline.State Unit ℚ} (h : Launching I p)
    (hstep : I.PipelineStep p .control p') :
  (Launching I p' ∧ p'.core.control.hops < p.core.control.hops)
    ∨ Between I [.started true] [] p'
  := by
  obtain ⟨hne, hs⟩ := h.reachable
  obtain ⟨_, hstep⟩ := hstep
  obtain ⟨hsubmitting, haccepted⟩ := hstep.submission_of_ne hs (by simp)
  obtain ⟨a, hc⟩ : ∃ a, Pipeline.ControlStep p.core a p'.core :=
    hstep.control_of_calling (Pipeline.synced_of_reachable hs) h.launching.calling
  obtain ⟨hlaunching, hlife, hlt⟩ | ⟨hidle, hlife⟩ := h.launching.control hc
  · left
    exact ⟨⟨⟨hne, hs.step hstep⟩, hlaunching, hlife.trans h.lifecycle,
      hsubmitting.trans h.submitting, haccepted.trans h.accepted⟩, hlt⟩
  · right
    rw [h.lifecycle] at hlife
    exact ⟨⟨hne, hs.step hstep⟩, hidle, hlife, hsubmitting.trans h.submitting,
      haccepted.trans h.accepted⟩

/-- `start` begins, where all workers are idle. -/
theorem Between.callStart {p p' : Pipeline.State Unit ℚ} (h : Between I [] [] p)
    (hidle : ∀ k, p.core.worker k = .idle) (hstep : I.PipelineStep p .control p')
    (hcall : p'.core.control = .starting .preprocess true) :
  Launching I p'
  := by
  obtain ⟨hne, hs⟩ := h.reachable
  obtain ⟨_, hstep⟩ := hstep
  obtain ⟨hsubmitting, haccepted⟩ := hstep.submission_of_ne hs (by simp)
  have hcalling : p.core.calling .control = none := by
    rw [Pipeline.Core.calling, h.control]
    rfl
  obtain ⟨a, hc⟩ := hstep.control_of_calling (Pipeline.synced_of_reachable hs) hcalling
  obtain ⟨hworker, hlife⟩ : p'.core.worker = p.core.worker
      ∧ p'.core.lifecycle = p.core.lifecycle := by
    have hcontrol := h.control
    generalize p'.core = c' at hc hcall ⊢
    cases hc with
    | invokeStart hp => exact ⟨rfl, rfl⟩
    | invokeStop hp => exact ⟨rfl, rfl⟩
    | _ hp => cases hcontrol.symm.trans hp
  refine ⟨⟨hne, hs.step hstep⟩, ⟨.preprocess, Or.inl ⟨hcall, ?_⟩⟩, hlife.trans h.lifecycle,
    hsubmitting.trans h.submitting, haccepted.trans h.accepted⟩
  intro j _
  rw [hworker, hidle j]

/-- The workers of a pipeline between calls stay idle before the first start. -/
theorem Between.idle {p p' : Pipeline.State Unit ℚ} {k : Pipeline.Stage} (h : Between I [] [] p)
    (hidle : ∀ k, p.core.worker k = .idle) (hstep : I.PipelineStep p (.stage k) p') :
  ∀ k, p'.core.worker k = .idle
  := by
  obtain ⟨hne, hs⟩ := h.reachable
  obtain ⟨_, hstep⟩ := hstep
  intro j
  obtain ⟨a, hc, -⟩ | ⟨hcore, -⟩ := hstep.cases
  · rw [hc.worker_of_none (Pipeline.attached_of_reachable hs) (by simp) (by rw [hidle j]; rfl),
      hidle j]
  · rw [hcore, hidle j]

/-- `submit` is in progress, with a sample. -/
structure Submitting (I : Inputs) (A : List (RawSample ℚ)) (sample : RawSample ℚ)
    (p : Pipeline.State Unit ℚ) : Prop where
  calling : ∃ h, Pipeline.Calling (I.params h) A sample p
  control : p.core.control = .idle
  lifecycle : p.core.lifecycle = [.started true]

/-- A pipeline in which `start` has returned true, and no call of `start` or `stop` is in progress, is
up. -/
theorem up_of_started {p : Pipeline.State Unit ℚ} (hcontrol : p.core.control = .idle)
    (hlife : p.core.lifecycle = [.started true]) :
  p.core.Up
  := by
  constructor
  · rw [hlife]
    apply List.mem_singleton_self
  · rintro (hmem | hin)
    · rw [hlife] at hmem
      cases List.mem_singleton.mp hmem
    · rw [hcontrol] at hin
      apply hin

/-- `submit` begins. -/
theorem Between.callSubmit {A : List (RawSample ℚ)} {sample : RawSample ℚ}
    {p p' : Pipeline.State Unit ℚ} (h : Between I [.started true] A p)
    (hstep : I.PipelineStep p (.submitter ()) p')
    (hcall : p'.core.submitting () = some sample) :
  Submitting I A sample p'
  := by
  obtain ⟨hne, hs⟩ := h.reachable
  obtain ⟨_, hstep⟩ := hstep
  obtain ⟨hcontrol, hlife⟩ := hstep.control_of_ne (by simp)
  have hidle := (Pipeline.synced_of_reachable hs).raw (.submitter ())
  rw [Pipeline.Core.rawCall, Pipeline.Core.calling, h.submitting] at hidle
  have hidle : p.raw_queue.phase (.submitter ()) = .idle := hidle
  have hin := (Pipeline.synced_of_reachable (hs.step hstep)).raw (.submitter ())
  rw [Pipeline.Core.rawCall, Pipeline.Core.calling, hcall] at hin
  obtain ⟨hview, haccepted⟩ :
      (p'.raw_queue.phase (.submitter ())).view = .before (.push sample)
        ∧ BlockingQueue.accepted p'.raw_queue.log = A := by
    obtain ⟨x, hx⟩ | hq := hstep.touches.1
    · rw [hx.same.2]
      refine ⟨?_, h.accepted⟩
      cases x with
      | none =>
          have hx : p'.raw_queue = p.raw_queue := hx
          rw [hx, hidle] at hin
          obtain hv | ⟨r, hv, -⟩ := hin <;> cases hv
      | call op =>
          have hview : (p'.raw_queue.phase (.submitter ())).view = .before op := by
            rw [hx.2, Monitor.State.call, Monitor.State.setPhase_phase_self]
            rfl
          have hop := hin.of_before hview
          injection hop with hop
          rw [hview, ← hop]
      | ret r => cases hidle.symm.trans hx.1
    · apply absurd hidle hq.ne_idle
  exact ⟨⟨hne, hs.step hstep,
      up_of_started (hcontrol.trans h.control) (hlife.trans h.lifecycle), hcall,
      Or.inl ⟨hview, haccepted⟩⟩, hcontrol.trans h.control, hlife.trans h.lifecycle⟩

/-- The steps of the workers leave `submit` in progress. -/
theorem Submitting.stage {A : List (RawSample ℚ)} {sample : RawSample ℚ}
    {p p' : Pipeline.State Unit ℚ} {k : Pipeline.Stage} (h : Submitting I A sample p)
    (hstep : I.PipelineStep p (.stage k) p') :
  Submitting I A sample p'
  := by
  obtain ⟨hne, hs⟩ := h.calling
  obtain ⟨_, hstep⟩ := hstep
  obtain ⟨hcontrol, hlife⟩ := hstep.control_of_ne (by simp)
  obtain ⟨hsubmitting, -⟩ := hstep.submission_of_ne hs.reachable (by simp)
  have hcontrol' := hcontrol.trans h.control
  have hlife' := hlife.trans h.lifecycle
  obtain (hcalled | ⟨hnone, -⟩) | hgoing := hs.step hstep
  · apply absurd hcalled (up_of_started hcontrol' hlife').2
  · cases (hnone.symm.trans hsubmitting).trans hs.submitting
  · exact ⟨⟨hne, hgoing⟩, hcontrol', hlife'⟩

/-- With a step of its own, `submit` goes on, or returns. -/
theorem Submitting.submitter {A : List (RawSample ℚ)} {sample : RawSample ℚ}
    {p p' : Pipeline.State Unit ℚ} (h : Submitting I A sample p)
    (hstep : I.PipelineStep p (.submitter ()) p') :
  Submitting I A sample p' ∨ Between I [.started true] (A ++ [sample]) p'
  := by
  obtain ⟨hne, hs⟩ := h.calling
  obtain ⟨_, hstep⟩ := hstep
  obtain ⟨hcontrol, hlife⟩ := hstep.control_of_ne (by simp)
  have hcontrol' := hcontrol.trans h.control
  have hlife' := hlife.trans h.lifecycle
  obtain (hcalled | ⟨hnone, haccepted⟩) | hgoing := hs.step hstep
  · apply absurd hcalled (up_of_started hcontrol' hlife').2
  · exact Or.inr ⟨⟨hne, hs.reachable.step hstep⟩, hcontrol', hlife', hnone, haccepted⟩
  · exact Or.inl ⟨⟨hne, hgoing⟩, hcontrol', hlife'⟩

/-! ### Points of `main` -/

/-- A read that succeeds gives the first sample of the replay. -/
theorem replay_of_reads {F : FloatType} {file rest : List Text} {sample sample' : RawSample ℚ}
    (h : CsvSensor.read F file sample = (true, rest, sample')) :
  CsvSensor.replay F file sample = sample' :: CsvSensor.replay F rest sample'
  := by
  cases file with
  | nil => cases h
  | cons line lines =>
      rw [CsvSensor.read, Prod.mk.injEq, Prod.mk.injEq] at h
      obtain ⟨hok, rfl, rfl⟩ := h
      rw [CsvSensor.replay, ← Prod.mk.eta (p := CsvSensor.readLine F line sample), hok]

/-- A read that fails ends the replay. -/
theorem replay_of_readFails {F : FloatType} {file : List Text} {sample : RawSample ℚ}
    (h : (CsvSensor.read F file sample).1 = false) :
  CsvSensor.replay F file sample = []
  := by
  cases file with
  | nil => rfl
  | cons line lines =>
      have hok : (CsvSensor.readLine F line sample).1 = false := h
      rw [CsvSensor.replay, ← Prod.mk.eta (p := CsvSensor.readLine F line sample), hok]

/-- What holds at the points of `main`. -/
def State.Holds (I : Inputs) (s : State) : Prop :=
  match s.pc with
  | .boot => s.pipeline = none
  | .initializing => s.pipeline = none
  | .start => ∃ p, s.pipeline = some p ∧ Between I [] [] p ∧ ∀ k, p.core.worker k = .idle
  | .starting => ∃ p, s.pipeline = some p ∧ Launching I p
  | .started => s.running = true ∧ ∃ p, s.pipeline = some p ∧ Between I [.started true] [] p
  | .reading file sample => s.running = true ∧ ∃ p A, s.pipeline = some p
      ∧ Between I [.started true] A p ∧ A ++ CsvSensor.replay I.F file sample = I.replayed
  | .read file sample => s.running = true ∧ ∃ p A, s.pipeline = some p
      ∧ Between I [.started true] A p
      ∧ A ++ sample :: CsvSensor.replay I.F file sample = I.replayed
  | .submitting file sample => s.running = true ∧ ∃ p A, s.pipeline = some p
      ∧ Submitting I A sample p ∧ A ++ sample :: CsvSensor.replay I.F file sample = I.replayed
  | .looping => s.running = true ∧ ∃ p, s.pipeline = some p
      ∧ Between I [.started true] I.replayed p
  | .stop => False
  | .stopping => False
  | .exited code => code = 1 ∧ s.pipeline = none ∧ (I.booted.1.ok = false ∨ I.loaded.1.ok = false)
  | .terminated => s.pipeline = none ∧ I.loaded.1.ok = true ∧ I.capacity = 0

/-- The steps of the workers keep what holds. -/
theorem State.Holds.stage {s : State} {p p' : Pipeline.State Unit ℚ} {k : Pipeline.Stage}
    (h : s.Holds I) (hs : s.pipeline = some p) (hstep : I.PipelineStep p (.stage k) p') :
  ({ s with pipeline := some p' } : State).Holds I
  := by
  rw [State.Holds] at h ⊢
  cases hp : s.pc with
  | start =>
      rw [hp] at h
      obtain ⟨p, hsome, hbetween, hidle⟩ := h
      cases hs.symm.trans hsome
      exact ⟨_, rfl, hbetween.stage hstep, hbetween.idle hidle hstep⟩
  | starting =>
      rw [hp] at h
      obtain ⟨p, hsome, hlaunching⟩ := h
      cases hs.symm.trans hsome
      exact ⟨_, rfl, (hlaunching.stage hstep).1⟩
  | started =>
      rw [hp] at h
      obtain ⟨hrunning, p, hsome, hbetween⟩ := h
      cases hs.symm.trans hsome
      exact ⟨hrunning, _, rfl, hbetween.stage hstep⟩
  | reading file sample =>
      rw [hp] at h
      obtain ⟨hrunning, p, A, hsome, hbetween, hreplayed⟩ := h
      cases hs.symm.trans hsome
      exact ⟨hrunning, _, A, rfl, hbetween.stage hstep, hreplayed⟩
  | read file sample =>
      rw [hp] at h
      obtain ⟨hrunning, p, A, hsome, hbetween, hreplayed⟩ := h
      cases hs.symm.trans hsome
      exact ⟨hrunning, _, A, rfl, hbetween.stage hstep, hreplayed⟩
  | submitting file sample =>
      rw [hp] at h
      obtain ⟨hrunning, p, A, hsome, hsubmitting, hreplayed⟩ := h
      cases hs.symm.trans hsome
      exact ⟨hrunning, _, A, rfl, hsubmitting.stage hstep, hreplayed⟩
  | looping =>
      rw [hp] at h
      obtain ⟨hrunning, p, hsome, hbetween⟩ := h
      cases hs.symm.trans hsome
      exact ⟨hrunning, _, rfl, hbetween.stage hstep⟩
  | boot =>
      rw [hp] at h
      cases hs.symm.trans h
  | initializing =>
      rw [hp] at h
      cases hs.symm.trans h
  | exited code =>
      rw [hp] at h
      cases hs.symm.trans h.2.1
  | terminated =>
      rw [hp] at h
      cases hs.symm.trans h.1
  | stop =>
      rw [hp] at h
      apply h.elim
  | stopping =>
      rw [hp] at h
      apply h.elim

/-- The program keeps what holds. -/
theorem Step.holds {s s' : State} {t : Thread} (h : Step I s t s') (hs : s.Holds I) :
  s'.Holds I
  := by
  cases h with
  | bootFails hp hload =>
      rw [State.Holds, hp] at hs
      exact ⟨rfl, hs, Or.inl hload⟩
  | boots hp hload =>
      rw [State.Holds, hp] at hs
      apply hs
  | loadFails hp hload =>
      rw [State.Holds, hp] at hs
      exact ⟨rfl, hs, Or.inr hload⟩
  | throws hp hload hzero =>
      rw [State.Holds, hp] at hs
      exact ⟨hs, hload, hzero⟩
  | constructs hp hload hne =>
      exact ⟨_, rfl, ⟨⟨hne, .init rfl⟩, rfl, rfl, rfl, rfl⟩, fun k => rfl⟩
  | callStart hp hs' hstep hcall =>
      rw [State.Holds, hp] at hs
      obtain ⟨p, hsome, hbetween, hidle⟩ := hs
      cases hs'.symm.trans hsome
      exact ⟨_, rfl, hbetween.callStart hidle hstep hcall⟩
  | starts hp hs' hstep hin =>
      rw [State.Holds, hp] at hs
      obtain ⟨p, hsome, hlaunching⟩ := hs
      cases hs'.symm.trans hsome
      obtain ⟨hgoing, -⟩ | hbetween := hlaunching.control hstep
      · rw [State.Holds, hp]
        exact ⟨_, rfl, hgoing⟩
      · apply absurd hbetween.control hin
  | startReturns hp hs' hstep hidle hok =>
      rw [State.Holds, hp] at hs
      obtain ⟨p, hsome, hlaunching⟩ := hs
      cases hs'.symm.trans hsome
      obtain ⟨hgoing, -⟩ | hbetween := hlaunching.control hstep
      · rw [hgoing.lifecycle] at hok
        cases hok
      · exact ⟨rfl, _, rfl, hbetween⟩
  | startFails hp hs' hstep hidle hok =>
      rw [State.Holds, hp] at hs
      obtain ⟨p, hsome, hlaunching⟩ := hs
      cases hs'.symm.trans hsome
      obtain ⟨hgoing, -⟩ | hbetween := hlaunching.control hstep
      · rw [hgoing.lifecycle] at hok
        cases hok
      · rw [hbetween.lifecycle] at hok
        cases hok
  | noReplay hp hfile =>
      rw [State.Holds, hp] at hs
      obtain ⟨hrunning, p, hsome, hbetween⟩ := hs
      refine ⟨hrunning, p, hsome, ?_⟩
      rw [Inputs.replayed, hfile]
      apply hbetween
  | opens hp hfile =>
      rw [State.Holds, hp] at hs
      obtain ⟨hrunning, p, hsome, hbetween⟩ := hs
      refine ⟨hrunning, p, [], hsome, hbetween, ?_⟩
      rw [Inputs.replayed, hfile]
      rfl
  | reads hp hread =>
      rw [State.Holds, hp] at hs
      obtain ⟨hrunning, p, A, hsome, hbetween, hreplayed⟩ := hs
      refine ⟨hrunning, p, A, hsome, hbetween, ?_⟩
      rw [← hreplayed, replay_of_reads hread]
  | readFails hp hread =>
      rw [State.Holds, hp] at hs
      obtain ⟨hrunning, p, A, hsome, hbetween, hreplayed⟩ := hs
      refine ⟨hrunning, p, hsome, ?_⟩
      rw [← hreplayed, replay_of_readFails hread, List.append_nil]
      apply hbetween
  | leavesReplay hp hr =>
      rw [State.Holds, hp] at hs
      cases hr.symm.trans hs.1
  | callSubmit hp hr hs' hstep hcall =>
      rw [State.Holds, hp] at hs
      obtain ⟨hrunning, p, A, hsome, hbetween, hreplayed⟩ := hs
      cases hs'.symm.trans hsome
      exact ⟨hrunning, _, A, rfl, hbetween.callSubmit hstep hcall, hreplayed⟩
  | submits hp hs' hstep hin =>
      rw [State.Holds, hp] at hs
      obtain ⟨hrunning, p, A, hsome, hsubmitting, hreplayed⟩ := hs
      cases hs'.symm.trans hsome
      obtain hgoing | hbetween := hsubmitting.submitter hstep
      · rw [State.Holds, hp]
        exact ⟨hrunning, _, A, rfl, hgoing, hreplayed⟩
      · apply absurd hbetween.submitting hin
  | submitReturns hp hs' hstep hret =>
      rw [State.Holds, hp] at hs
      obtain ⟨hrunning, p, A, hsome, hsubmitting, hreplayed⟩ := hs
      cases hs'.symm.trans hsome
      obtain ⟨⟨hne, hgoing⟩, -⟩ | hbetween := hsubmitting.submitter hstep
      · cases hret.symm.trans hgoing.submitting
      · refine ⟨hrunning, _, _, rfl, hbetween, ?_⟩
        rw [← hreplayed, List.append_assoc]
        rfl
  | leavesRun hp hr =>
      rw [State.Holds, hp] at hs
      cases hr.symm.trans hs.1
  | callStop hp =>
      rw [State.Holds, hp] at hs
      apply hs.elim
  | stops hp =>
      rw [State.Holds, hp] at hs
      apply hs.elim
  | stopReturns hp =>
      rw [State.Holds, hp] at hs
      apply hs.elim
  | stage halive hs' hstep hanswer => apply hs.stage hs' hstep

/-- In every reachable state of the program, what holds at its point does. -/
theorem holds_of_reachable {s : State} (h : (system I).Reachable s) :
  s.Holds I
  := by
  apply h.invariant
  · rintro s rfl
    rfl
  · intro s t s' _ hs hstep
    apply Step.holds hstep hs

/-- What the pipeline is in a reachable state, once it has been constructed. -/
theorem State.Holds.pipeline {s : State} (h : s.Holds I) {p : Pipeline.State Unit ℚ}
    (hs : s.pipeline = some p) :
  (∃ hne, (Pipeline.system Unit (I.params hne)).Reachable p) ∧ ¬ p.core.StopCalled
    ∧ BlockingQueue.accepted p.raw_queue.log <+: I.replayed
  := by
  have hbetween : ∀ {A rest : List (RawSample ℚ)}, Between I [.started true] A p →
      A ++ rest = I.replayed →
      (∃ hne, (Pipeline.system Unit (I.params hne)).Reachable p) ∧ ¬ p.core.StopCalled
        ∧ BlockingQueue.accepted p.raw_queue.log <+: I.replayed := by
    intro A rest hp hrest
    refine ⟨hp.reachable, (up_of_started hp.control hp.lifecycle).2, ?_⟩
    rw [hp.accepted]
    exact ⟨rest, hrest⟩
  have hnot : p.core.lifecycle = [] → ¬ p.core.control.InStop → ¬ p.core.StopCalled := by
    rintro hlife hin (hmem | hin')
    · rw [hlife] at hmem
      cases hmem
    · apply hin hin'
  rw [State.Holds] at h
  cases hp : s.pc with
  | boot =>
      rw [hp] at h
      cases hs.symm.trans h
  | initializing =>
      rw [hp] at h
      cases hs.symm.trans h
  | start =>
      rw [hp] at h
      obtain ⟨p, hsome, hp, -⟩ := h
      cases hs.symm.trans hsome
      refine ⟨hp.reachable, hnot hp.lifecycle ?_, ?_⟩
      · rw [hp.control]
        exact id
      · rw [hp.accepted]
        apply List.nil_prefix
  | starting =>
      rw [hp] at h
      obtain ⟨p, hsome, hp⟩ := h
      cases hs.symm.trans hsome
      refine ⟨hp.reachable, hnot hp.lifecycle ?_, ?_⟩
      · obtain ⟨k, ⟨hk, -⟩ | ⟨hk, -⟩⟩ := hp.launching <;> rw [hk] <;> exact id
      · rw [hp.accepted]
        apply List.nil_prefix
  | started =>
      rw [hp] at h
      obtain ⟨-, p, hsome, hp⟩ := h
      cases hs.symm.trans hsome
      apply hbetween hp (List.nil_append _)
  | reading file sample =>
      rw [hp] at h
      obtain ⟨-, p, A, hsome, hp, hreplayed⟩ := h
      cases hs.symm.trans hsome
      apply hbetween hp hreplayed
  | read file sample =>
      rw [hp] at h
      obtain ⟨-, p, A, hsome, hp, hreplayed⟩ := h
      cases hs.symm.trans hsome
      apply hbetween hp hreplayed
  | submitting file sample =>
      rw [hp] at h
      obtain ⟨-, p, A, hsome, ⟨⟨hne, hp⟩, -, -⟩, hreplayed⟩ := h
      cases hs.symm.trans hsome
      refine ⟨⟨hne, hp.reachable⟩, hp.up.2, ?_⟩
      rw [← hreplayed]
      obtain ⟨-, hA⟩ | ⟨-, hA⟩ := hp.pushed
      · rw [hA]
        apply List.prefix_append
      · rw [hA]
        exact ⟨CsvSensor.replay I.F file sample, by simp⟩
  | looping =>
      rw [hp] at h
      obtain ⟨-, p, hsome, hp⟩ := h
      cases hs.symm.trans hsome
      apply hbetween hp (List.append_nil _)
  | stop =>
      rw [hp] at h
      apply h.elim
  | stopping =>
      rw [hp] at h
      apply h.elim
  | exited code =>
      rw [hp] at h
      cases hs.symm.trans h.2.1
  | terminated =>
      rw [hp] at h
      cases hs.symm.trans h.1

/-! ### The answers of the engine -/

/-- Only the thread of the inference has tensors inferred. -/
theorem inferred_of_ne {P : Pipeline.Params ℚ} {p p' : Pipeline.State Unit ℚ}
    {t : Pipeline.Thread Unit} (h : Pipeline.Step P p t p') (ht : t ≠ .stage .inference) :
  p'.core.inferred = p.core.inferred
  := by
  obtain ⟨a, hc, -⟩ | ⟨hcore, -⟩ := h.cases
  · apply (hc.inferring ht).2.2
  · rw [hcore]

/-- Whatever a step of the program does, a tensor that is inferred is answered by the engine. -/
theorem Step.answered {s s' : State} {t : Thread} (h : Step I s t s')
    (hpc : s.pc ≠ .initializing) {p : Pipeline.State Unit ℚ} (hs : s.pipeline = some p) :
  ∃ p', s'.pipeline = some p' ∧ (p'.core.inferred = p.core.inferred
    ∨ ∃ q, p'.core.inferred = p.core.inferred ++ [q] ∧ q.2.ready = s.engine.initialized)
  := by
  obtain ⟨p', hs', hproj⟩ := h.projects hpc hs
  refine ⟨p', hs', ?_⟩
  cases t with
  | main =>
      left
      have hactor : ∀ u, s.actor .main = some u → u ≠ .stage .inference := by
        rintro u hu rfl
        unfold State.actor at hu
        cases hp : s.pc <;> simp [hp] at hu
      cases hu : s.actor .main with
      | none =>
          rw [hu] at hproj
          rw [show p' = p from hproj]
      | some u =>
          rw [hu] at hproj
          obtain ⟨_, hstep⟩ := hproj
          apply inferred_of_ne hstep (hactor u hu)
  | stage k =>
      cases h with
      | stage halive hsome hstep hanswer =>
          cases hs.symm.trans hsome
          cases hs'
          obtain ⟨_, hstep⟩ := hstep
          obtain hsame | ⟨q, hq⟩ := hstep.inferred
          · exact Or.inl hsame
          · exact Or.inr ⟨q, hq, (hanswer q.1 q.2 hq).1⟩

/-- Once the pipeline is constructed, its engine is left alone. -/
theorem Step.engine_of_ne {s s' : State} {t : Thread} (h : Step I s t s')
    (hpc : s.pc ≠ .initializing) :
  s'.engine = s.engine
  := by
  cases h with
  | constructs hp => apply absurd hp hpc
  | _ => rfl

/-- There is no pipeline before it is constructed. -/
theorem Step.pipeline_of_none {s s' : State} {t : Thread} (h : Step I s t s')
    (hpc : s.pc ≠ .initializing) (hs : s.pipeline = none) :
  s'.pipeline = none
  := by
  cases h with
  | constructs hp => apply absurd hp hpc
  | bootFails => apply hs
  | boots => apply hs
  | loadFails => apply hs
  | throws => apply hs
  | noReplay => apply hs
  | opens => apply hs
  | reads => apply hs
  | readFails => apply hs
  | leavesReplay => apply hs
  | leavesRun => apply hs
  | callStart _ hsome => cases hs.symm.trans hsome
  | starts _ hsome => cases hs.symm.trans hsome
  | startReturns _ hsome => cases hs.symm.trans hsome
  | startFails _ hsome => cases hs.symm.trans hsome
  | callSubmit _ _ hsome => cases hs.symm.trans hsome
  | submits _ hsome => cases hs.symm.trans hsome
  | submitReturns _ hsome => cases hs.symm.trans hsome
  | callStop _ hsome => cases hs.symm.trans hsome
  | stops _ hsome => cases hs.symm.trans hsome
  | stopReturns _ hsome => cases hs.symm.trans hsome
  | stage _ hsome => cases hs.symm.trans hsome

/-- The engine of the pipeline is never loaded, and so it has never been ready for a tensor. -/
theorem unready_of_reachable {s : State} (h : (system I).Reachable s) :
  s.engine = .default
    ∧ ∀ p, s.pipeline = some p → ∀ q ∈ p.core.inferred, q.2.ready = false
  := by
  apply h.invariant
  · rintro s rfl
    refine ⟨rfl, ?_⟩
    rintro p ⟨⟩
  · rintro s t s' hs ⟨hengine, hunready⟩ hstep
    by_cases hpc : s.pc = .initializing
    · have hholds := holds_of_reachable hs
      rw [State.Holds, hpc] at hholds
      cases hstep with
      | constructs hp hload hne =>
          refine ⟨rfl, ?_⟩
          rintro p ⟨⟩ q hq
          cases hq
      | stage halive hsome => cases hholds.symm.trans hsome
      | loadFails => exact ⟨hengine, hunready⟩
      | throws => exact ⟨hengine, hunready⟩
      | _ hp => cases hpc.symm.trans hp
    · have hstep : Step I s t s' := hstep
      refine ⟨(hstep.engine_of_ne hpc).trans hengine, ?_⟩
      intro p' hs'
      cases hsome : s.pipeline with
      | none => cases (hstep.pipeline_of_none hpc hsome).symm.trans hs'
      | some p =>
          obtain ⟨p'', hs'', hq⟩ := hstep.answered hpc hsome
          cases hs'.symm.trans hs''
          obtain hsame | ⟨q, hsnoc, hready⟩ := hq
          · rw [hsame]
            apply hunready p hsome
          · rw [hsnoc]
            intro q' hq'
            obtain hq' | hq' := List.mem_append.mp hq'
            · apply hunready p hsome q' hq'
            · cases List.mem_singleton.mp hq'
              rw [hready, hengine]
              rfl

end App
