import PipeAI.Pipeline.Pipeline
import PipeAI.Runtime.ConfigSize
import PipeAI.Sensor.CsvSensor

/-!
# The application

`Application.initializeFrom` is `Application::initialize`: it loads the configuration, constructs
the pipeline and starts it, and replays a file of samples into it when the configuration names
one.  The constructor of the pipeline throws an exception when the capacity of its queues is 0,
which is not caught.

A status is returned for every configuration that is not accepted, and for every other one but
those that give the capacity as zeros after an optional sign (`Application.reports_iff`).  The
messages to the logger are left out.
-/

namespace Application

/-! ### The code -/

/-- The queues and the workers of a `Pipeline`. -/
structure PipelineObject where
  raw_queue : BlockingQueue (RawSample ℚ)
  tensor_queue : BlockingQueue (ModelInput ℚ)
  result_queue : BlockingQueue (InferenceResult ℚ)
  preprocess_worker : Worker
  inference_worker : Worker
  post_worker : Worker

/-- The constructor of `Pipeline`. -/
def PipelineObject.create (queue_capacity : UInt64) : Except String PipelineObject := do
  let raw_queue ← BlockingQueue.create (RawSample ℚ) queue_capacity.toNat
  let tensor_queue ← BlockingQueue.create (ModelInput ℚ) queue_capacity.toNat
  let result_queue ← BlockingQueue.create (InferenceResult ℚ) queue_capacity.toNat
  return ⟨raw_queue, tensor_queue, result_queue, .idle, .idle, .idle⟩

/-- `Worker::start`: whether it starts the thread, and the worker, unless it terminates the
process. -/
def startWorker (w : Worker) : Option (Bool × Worker) :=
  if (w.exchange true).1 then some (false, (w.exchange true).2)
  else ((w.exchange true).2.assign).map (fun w => (true, w))

/-- `Pipeline::start`. -/
def PipelineObject.start (pipeline : PipelineObject) : Option (Bool × PipelineObject) := do
  let (ok, preprocess_worker) ← startWorker pipeline.preprocess_worker
  let (ok', inference_worker) ← startWorker pipeline.inference_worker
  let (ok'', post_worker) ← startWorker pipeline.post_worker
  return (ok && ok' && ok'', { pipeline with
    preprocess_worker := preprocess_worker
    inference_worker := inference_worker
    post_worker := post_worker })

/-- How a call can end other than by its return. -/
inductive Escape where
  | exception (what : String)
  | terminate

/-- `Status::error`, of which the source has no declaration, as a failing status. -/
def statusError (message : String) : Status :=
  .failure .invalidArgument message

/-- The loop that replays the lines of a file, where `running n` is the value of `running_` at its
test number `n`: the samples handed to `submit`. -/
def replayLoop (F : FloatType) (running : ℕ → Bool) :
    ℕ → List Text → RawSample ℚ → List (RawSample ℚ)
  | _, [], _ => []
  | n, line :: file, sample =>
      match CsvSensor.readLine F line sample with
      | (true, sample) =>
          if running n then sample :: replayLoop F running (n + 1) file sample else []
      | (false, _) => []

end Application

/-- `Application`. -/
structure Application where
  config : Config
  running : Bool
  pipeline : Option Application.PipelineObject

namespace Application

/-- The default-constructed `Application`. -/
def default : Application where
  config := .cleared
  running := false
  pipeline := none

/-- The key of the capacity of the queues. -/
def capacityKey : Text :=
  "pipeline.raw_queue_capacity".toList

/-- `Application::initialize`: the application, and the status with the samples that have been
submitted, unless the call ends otherwise.  A file that cannot be opened is `none`. -/
def initializeFrom (F : FloatType) (files : Text → Option (List Text)) (running : ℕ → Bool)
    (path : String) (file : Option Text) (app : Application) :
    Application × Except Escape (Status × List (RawSample ℚ)) :=
  let (status, config) := app.config.load path file
  let app := { app with config := config }
  if !status.ok then (app, .ok (status, []))
  else
    let capacity := config.getSize capacityKey 1024
    match PipelineObject.create capacity with
    | .error what => (app, .error (.exception what))
    | .ok pipeline =>
        match pipeline.start with
        | none => ({ app with pipeline := some pipeline }, .error .terminate)
        | some (ok, pipeline) =>
            let app := { app with pipeline := some pipeline }
            if !ok then (app, .ok (statusError "pipeline start failed", []))
            else
              let app := { app with running := true }
              let csv := config.getString "sensor.csv".toList []
              if csv.isEmpty then (app, .ok (.success, []))
              else
                match files csv with
                | none => (app, .ok (.success, []))
                | some lines =>
                    (app, .ok (.success, replayLoop F running 0 lines (RawSample.default ℚ)))

/-! ### The capacity -/

/-- The configuration is accepted, and gives the capacity as zeros after an optional sign. -/
def GivesZeroCapacity (loaded : Status × Config) : Prop :=
  loaded.1.ok = true ∧ ∃ sign digits, loaded.2.values capacityKey = some (sign ++ digits)
    ∧ (sign = [] ∨ sign = ['+'] ∨ sign = ['-']) ∧ digits ≠ [] ∧ ∀ c ∈ digits, c = '0'

/-- Zeros have the value 0. -/
theorem digitsValue_of_zeros {digits : Text} (h : ∀ c ∈ digits, c = '0') :
  digitsValue 10 digits = 0
  := by
  apply (Config.digitsValue_eq_zero_iff _).mpr h
  intro c hc
  rw [h c hc]
  decide

/-- The capacity that is read from trimmed values is 0 exactly when it is given as zeros after an
optional sign. -/
theorem getSize_eq_zero_iff {config : Config} (h : config.Trimmed) (key : Text)
    {fallback : UInt64} (hfallback : fallback ≠ 0) :
  config.getSize key fallback = 0
    ↔ ∃ sign digits, config.values key = some (sign ++ digits)
      ∧ (sign = [] ∨ sign = ['+'] ∨ sign = ['-']) ∧ digits ≠ [] ∧ ∀ c ∈ digits, c = '0'
  := by
  constructor
  · intro hzero
    cases htext : config.values key with
    | none =>
        rw [Config.getSize, htext] at hzero
        apply absurd hzero hfallback
    | some text =>
        by_cases hparts : ∃ space sign digits, Config.Parts text space sign digits
        · obtain ⟨space, sign, digits, hparts⟩ := hparts
          rw [Config.getSize_of_parts htext hparts, hparts.signedSize_eq_zero_iff] at hzero
          obtain rfl := hparts.space_eq_nil (h key text htext)
          exact ⟨sign, digits, congrArg some hparts.text_eq, hparts.sign_mem,
            hparts.digits_ne_nil, hzero⟩
        · rw [Config.getSize_of_not_parts htext
            (fun space sign digits hp => hparts ⟨space, sign, digits, hp⟩)] at hzero
          apply absurd hzero hfallback
  · rintro ⟨sign, digits, htext, hsign, hne, hzeros⟩
    have hparts : Config.Parts (sign ++ digits) [] sign digits := by
      refine ⟨rfl, by simp, hsign, hne, ?_, ?_⟩
      · intro c hc
        rw [hzeros c hc]
        decide
      · rw [digitsValue_of_zeros hzeros]
        decide
    rw [Config.getSize_of_parts htext hparts, hparts.signedSize_eq_zero_iff]
    apply hzeros

/-- The configuration that is accepted has trimmed values. -/
theorem trimmed_of_ok {path : String} {file : Option Text} {config : Config}
    (hok : (config.load path file).1.ok = true) :
  (config.load path file).2.Trimmed
  := by
  cases file with
  | none => cases hok
  | some text =>
      apply Config.Trimmed.loadLines
      intro key value hvalue
      cases hvalue

/-! ### The pipeline -/

/-- The pipeline is not constructed with the capacity 0. -/
theorem PipelineObject.create_zero :
  PipelineObject.create 0 = .error "BlockingQueue capacity must be > 0"
  := rfl

/-- The pipeline is constructed with any other capacity, and its workers are idle. -/
theorem PipelineObject.create_of_ne_zero {queue_capacity : UInt64} (h : queue_capacity ≠ 0) :
  ∃ raw_queue tensor_queue result_queue, PipelineObject.create queue_capacity
    = .ok ⟨raw_queue, tensor_queue, result_queue, .idle, .idle, .idle⟩
  := by
  have hne : queue_capacity.toNat ≠ 0 := by
    intro hzero
    apply h
    rw [← UInt64.toNat_inj, hzero]
    rfl
  have hcreate : ∀ T, ∃ q, BlockingQueue.create T queue_capacity.toNat = .ok q := by
    intro T
    rw [BlockingQueue.create, dif_neg hne]
    exact ⟨_, rfl⟩
  obtain ⟨raw_queue, hraw⟩ := hcreate (RawSample ℚ)
  obtain ⟨tensor_queue, htensor⟩ := hcreate (ModelInput ℚ)
  obtain ⟨result_queue, hresult⟩ := hcreate (InferenceResult ℚ)
  use raw_queue, tensor_queue, result_queue
  rw [PipelineObject.create, hraw, htensor, hresult]
  rfl

/-- A pipeline whose workers are idle starts. -/
theorem PipelineObject.start_idle (raw_queue : BlockingQueue (RawSample ℚ))
    (tensor_queue : BlockingQueue (ModelInput ℚ))
    (result_queue : BlockingQueue (InferenceResult ℚ)) :
  ∃ pipeline, PipelineObject.start ⟨raw_queue, tensor_queue, result_queue, .idle, .idle, .idle⟩
    = some (true, pipeline)
  := ⟨_, rfl⟩

/-! ### The return -/

section Return

variable (F : FloatType) (files : Text → Option (List Text)) (running : ℕ → Bool)
  {path : String} {file : Option Text} (app : Application)

/-- The status of a configuration that is not accepted is returned. -/
theorem initializeFrom_of_not_ok (hok : (app.config.load path file).1.ok = false) :
  (initializeFrom F files running path file app).2
    = .ok ((app.config.load path file).1, [])
  := by
  rw [initializeFrom]
  simp [hok]

/-- A configuration with the capacity 0 leads to the exception of the constructor. -/
theorem initializeFrom_of_zero (hok : (app.config.load path file).1.ok = true)
    (hzero : (app.config.load path file).2.getSize capacityKey 1024 = 0) :
  (initializeFrom F files running path file app).2
    = .error (.exception "BlockingQueue capacity must be > 0")
  := by
  rw [initializeFrom]
  simp [hok, hzero, PipelineObject.create_zero]

/-- A configuration with any other capacity leads to success. -/
theorem initializeFrom_of_ne_zero (hok : (app.config.load path file).1.ok = true)
    (hne : (app.config.load path file).2.getSize capacityKey 1024 ≠ 0) :
  ∃ submitted, (initializeFrom F files running path file app).2 = .ok (.success, submitted)
  := by
  obtain ⟨raw_queue, tensor_queue, result_queue, hcreate⟩ := PipelineObject.create_of_ne_zero hne
  obtain ⟨pipeline, hstart⟩ := PipelineObject.start_idle raw_queue tensor_queue result_queue
  rw [initializeFrom]
  simp only [hok, hcreate, hstart]
  rw [if_neg (by simp), if_neg (by simp)]
  split
  · exact ⟨_, rfl⟩
  · split
    · exact ⟨_, rfl⟩
    · exact ⟨_, rfl⟩

end Return

/-- For every configuration file, the call returns a status, and the capacity is at least 1 if the
configuration is accepted, unless the configuration is accepted and gives the capacity as zeros
after an optional sign. -/
theorem reports_iff (F : FloatType) (files : Text → Option (List Text)) (running : ℕ → Bool)
    (path : String) (file : Option Text) (app : Application) :
  (∃ status submitted,
      (initializeFrom F files running path file app).2 = .ok (status, submitted))
      ∧ ((app.config.load path file).1.ok = true →
        1 ≤ (app.config.load path file).2.getSize capacityKey 1024)
    ↔ ¬ GivesZeroCapacity (app.config.load path file)
  := by
  cases hok : (app.config.load path file).1.ok with
  | false =>
      apply iff_of_true
      · constructor
        · exact ⟨_, _, initializeFrom_of_not_ok F files running app hok⟩
        · simp
      · rintro ⟨hload, -⟩
        rw [hok] at hload
        cases hload
  | true =>
      have hcapacity := getSize_eq_zero_iff (trimmed_of_ok hok) capacityKey
        (show (1024 : UInt64) ≠ 0 by decide)
      rw [GivesZeroCapacity, hok, ← hcapacity]
      by_cases hzero : (app.config.load path file).2.getSize capacityKey 1024 = 0
      · rw [hzero]
        apply iff_of_false
        · rintro ⟨-, hle⟩
          apply absurd (hle rfl) (by decide)
        · simp
      · apply iff_of_true
        · constructor
          · obtain ⟨submitted, hreturn⟩ := initializeFrom_of_ne_zero F files running app hok hzero
            exact ⟨_, _, hreturn⟩
          · intro _
            rw [UInt64.le_iff_toNat_le]
            have hpos := fun h => hzero (UInt64.toNat_inj.mp h)
            simp at hpos ⊢
            omega
        · simp [hzero]

/-- A configuration file that gives the capacity 0 is accepted, and leads to an exception. -/
theorem throws_of_zero_capacity :
  ∃ config, Config.cleared.load "pipe.conf" (some "pipeline.raw_queue_capacity=0".toList)
      = (.success, config)
    ∧ config.getSize capacityKey 1024 = 0
    ∧ (initializeFrom .float (fun _ => none) (fun _ => true) "pipe.conf"
      (some "pipeline.raw_queue_capacity=0".toList) default).2
      = .error (.exception "BlockingQueue capacity must be > 0")
  := by
  have hzero : (Config.cleared.load "pipe.conf"
      (some "pipeline.raw_queue_capacity=0".toList)).2.getSize capacityKey 1024 = 0 := by
    decide
  exact ⟨_, rfl, hzero, initializeFrom_of_zero .float (fun _ => none) (fun _ => true)
    default rfl hzero⟩

/-! ### The replay -/

/-- The samples that are submitted are the first samples of the replay, and all of them if the
application is running throughout. -/
theorem replayLoop_prefix (F : FloatType) (running : ℕ → Bool) (n : ℕ) (file : List Text)
    (sample : RawSample ℚ) :
  replayLoop F running n file sample <+: CsvSensor.replay F file sample
    ∧ ((∀ m, running m = true) →
      replayLoop F running n file sample = CsvSensor.replay F file sample)
  := by
  induction file generalizing n sample with
  | nil => simp [replayLoop, CsvSensor.replay]
  | cons line file ih =>
      rw [replayLoop, CsvSensor.replay]
      obtain ⟨ok, sample', hread⟩ :
          ∃ ok sample', CsvSensor.readLine F line sample = (ok, sample') := ⟨_, _, rfl⟩
      rw [hread]
      cases ok with
      | false => simp
      | true =>
          obtain ⟨hread, hall⟩ := ih (n + 1) sample'
          simp only
          constructor
          · split
            · rw [List.prefix_cons_inj]
              apply hread
            · apply List.nil_prefix
          · intro hrunning
            rw [if_pos (hrunning n), hall hrunning]

end Application
