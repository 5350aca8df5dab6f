import PipeAI.App.Completion

/-!
# What the program does

In every run of the program the results are those of the blocks of the samples of the file, in
order (`replays_of_reachable`); since no model is loaded into the engine of the pipeline, all of
them say the same (`reports_of_reachable`); and in every fair execution all complete blocks of the
file are delivered, and then nothing more happens (`completes`).
-/

namespace App

/-! ### A file of one block -/

/-- A line of zeros. -/
def zeroLine : Text :=
  "0,0,0,0,0,0,0,0,0,0".toList

/-- A configuration that names a file of `kTargetLength` lines of zeros. -/
def Inputs.small : Inputs where
  F := .float
  path := "pipe.conf"
  bootFile := some "[sensor]\ncsv = zeros.csv".toList
  file := some "[sensor]\ncsv = zeros.csv".toList
  files := fun name =>
    if name = "zeros.csv".toList then some (List.replicate kTargetLength zeroLine) else none
  rounding := Rounding.exact ℚ
  exp := fun _ => .fin 1

/-- A line of zeros is read as the sample of zeros. -/
theorem readLine_zeroLine :
  CsvSensor.readLine .float zeroLine (RawSample.default ℚ) = (true, RawSample.default ℚ)
  := by
  have hok : (CsvSensor.readLine .float zeroLine (RawSample.default ℚ)).1 = true := by
    decide +kernel
  have htime :
      (CsvSensor.readLine .float zeroLine (RawSample.default ℚ)).2.timestamp_ns = 0 := by
    decide +kernel
  have hradar : ∀ i,
      (CsvSensor.readLine .float zeroLine (RawSample.default ℚ)).2.radar i = .fin 0 := by
    decide +kernel
  have himu : (CsvSensor.readLine .float zeroLine (RawSample.default ℚ)).2.imu = .fin 0 := by
    decide +kernel
  generalize CsvSensor.readLine .float zeroLine (RawSample.default ℚ) = out at *
  obtain ⟨ok, timestamp_ns, radar, imu⟩ := out
  cases hok
  cases htime
  cases himu
  rw [show radar = fun _ => .fin 0 from funext hradar]
  rfl

theorem replay_zeroLines (n : ℕ) :
  CsvSensor.replay .float (List.replicate n zeroLine) (RawSample.default ℚ)
    = List.replicate n (RawSample.default ℚ)
  := by
  induction n with
  | zero => rfl
  | succ n ih =>
      rw [List.replicate_succ, List.replicate_succ, ← ih, CsvSensor.replay, readLine_zeroLine]

/-- The samples of the file. -/
theorem Inputs.replayed_small :
  Inputs.small.replayed = List.replicate kTargetLength (RawSample.default ℚ)
  := by
  have hfile : Inputs.small.replayFile = some (List.replicate kTargetLength zeroLine) := by
    have hcsv : Inputs.small.loaded.2.getString "sensor.csv".toList [] = "zeros.csv".toList := by
      decide
    rw [Inputs.replayFile, hcsv]
    rfl
  rw [Inputs.replayed, hfile]
  apply replay_zeroLines

/-- The program delivers the block. -/
theorem exists_delivered :
  ∃ s p, (system Inputs.small).Reachable s ∧ s.pipeline = some p ∧ p.core.callbacks.length = 1
  := by
  obtain ⟨E, hinit, hE⟩ := exists_fair Inputs.small .initial
  have hreach : (system Inputs.small).Reachable (E.state 0) := .init hinit
  obtain ⟨n, hn⟩ := hE.looping (by decide) (by decide) (by decide) hinit
  obtain ⟨m, -, hm⟩ := hE.delivers hreach hn
  obtain ⟨-, p, hp, -, hlen⟩ := hm m (le_refl m)
  refine ⟨E.state m, p, E.reachable hreach m, hp, ?_⟩
  rw [hlen, Inputs.replayed_small, List.length_replicate]
  apply Nat.div_self (by decide)

variable (I : Inputs)

/-! ### The results of a run -/

/-- In every run of the program, whatever the steps of its threads: `main` returns only with the
failure code, and only when a configuration is not accepted; the process is terminated only when the
configuration gives the capacity 0; and once there is a pipeline, it is never stopped, the samples it
has accepted are the first ones of the file, in order, and the result number `k` that the callback
is given is that of the block number `k` of the samples of the file. -/
theorem replays_of_reachable {s : State} (h : (system I).Reachable s) :
  (∀ code, s.pc = .exited code →
      code = 1 ∧ (I.booted.1.ok = false ∨ I.loaded.1.ok = false))
    ∧ (s.pc = .terminated → I.loaded.1.ok = true ∧ I.capacity = 0)
    ∧ ∀ p, s.pipeline = some p → ∃ hne : I.capacity ≠ 0, ¬ p.core.StopCalled
      ∧ BlockingQueue.accepted p.raw_queue.log <+: I.replayed
      ∧ ∀ k r, p.core.callbacks[k]? = some r → (k + 1) * kTargetLength ≤ I.replayed.length
        ∧ ∃ input a,
          Pipeline.tensorOf (I.params hne) (Pipeline.block I.replayed k) = some input
          ∧ p.core.inferred[k]? = some (input, a)
          ∧ r = Classifier.classify I.exp (Pipeline.inferenceResult (UInt64.ofNat (k + 1)) a)
  := by
  have hs := holds_of_reachable h
  refine ⟨?_, ?_, ?_⟩
  · intro code hp
    rw [State.Holds, hp] at hs
    exact ⟨hs.1, hs.2.2⟩
  · intro hp
    rw [State.Holds, hp] at hs
    apply hs.2
  · intro p hp
    obtain ⟨⟨hne, hreach⟩, hnot, haccepted⟩ := hs.pipeline hp
    refine ⟨hne, hnot, haccepted, ?_⟩
    intro k r hr
    obtain ⟨input, a, hinferred, rfl⟩ := Pipeline.callbacks_of_reachable hreach hr
    obtain ⟨htensor, hlen⟩ := Pipeline.inferred_of_reachable hreach hinferred
    rw [← Pipeline.block_of_isPrefix haccepted hlen] at htensor
    exact ⟨hlen.trans haccepted.length_le, input, a, htensor, hinferred, rfl⟩

/-- The theorem at a state in which the result of a block has been delivered. -/
theorem replays_of_reachable_small :
  ∃ s p, (system Inputs.small).Reachable s ∧ s.pipeline = some p
    ∧ (∀ code, s.pc = .exited code → code = 1)
    ∧ ∃ r input a hne, p.core.callbacks = [r]
      ∧ Pipeline.tensorOf (Inputs.small.params hne) (Pipeline.block Inputs.small.replayed 0)
        = some input
      ∧ r = Classifier.classify Inputs.small.exp (Pipeline.inferenceResult (UInt64.ofNat 1) a)
  := by
  obtain ⟨s, p, hs, hp, hlen⟩ := exists_delivered
  obtain ⟨hexited, -, hpipeline⟩ := replays_of_reachable Inputs.small hs
  obtain ⟨hne, -, -, hresults⟩ := hpipeline p hp
  obtain ⟨r, hr⟩ := List.length_eq_one_iff.mp hlen
  obtain ⟨-, input, a, htensor, -, heq⟩ := hresults 0 r (by rw [hr]; rfl)
  exact ⟨s, p, hs, hp, fun code hcode => (hexited code hcode).1, r, input, a, hne, hr, htensor, heq⟩

/-- In every run of the program the results say the same, apart from their numbers, which are those
of their places: the logits are 0, the class is 0, and the probabilities are equal, each one out of
`kClassCount`, whatever the samples are. -/
theorem reports_of_reachable {s : State} (h : (system I).Reachable s)
    {p : Pipeline.State Unit ℚ} (hp : s.pipeline = some p) {k : ℕ} {r : InferenceResult ℚ}
    (hr : p.core.callbacks[k]? = some r) :
  r.window_id = UInt64.ofNat (k + 1) ∧ r.class_id = 0 ∧ (∀ i, r.logits i = .fin 0)
    ∧ (∀ i, r.probabilities i = r.confidence)
    ∧ (I.exp (.fin 0) = .fin 1 → r.confidence = .fin (1 / kClassCount))
  := by
  obtain ⟨⟨hne, hreach⟩, -⟩ := (holds_of_reachable h).pipeline hp
  obtain ⟨input, a, hinferred, rfl⟩ := Pipeline.callbacks_of_reachable hreach hr
  have hready : a.ready = false := by
    obtain ⟨hlt, hget⟩ := List.getElem?_eq_some_iff.mp hinferred
    apply (unready_of_reachable h).2 p hp (input, a)
    rw [← hget]
    apply List.getElem_mem
  have hlogits : ∀ i, (Pipeline.inferenceResult (UInt64.ofNat (k + 1)) a).logits i = .fin 0 := by
    intro i
    simp [Pipeline.inferenceResult, hready]
  refine ⟨rfl, Classifier.class_id_of_equal I.exp hlogits, hlogits,
    Classifier.confidence_of_equal I.exp hlogits, ?_⟩
  intro hexp
  apply Classifier.confidence_of_zero hexp hlogits

/-- The theorem at a state in which the result of a block has been delivered. -/
theorem reports_of_reachable_small :
  ∃ s p r, (system Inputs.small).Reachable s ∧ s.pipeline = some p ∧ p.core.callbacks = [r]
    ∧ r.window_id = 1 ∧ r.class_id = 0 ∧ r.confidence = .fin (1 / 5)
  := by
  obtain ⟨s, p, hs, hp, hlen⟩ := exists_delivered
  obtain ⟨r, hr⟩ := List.length_eq_one_iff.mp hlen
  obtain ⟨hid, hclass, -, -, hconfidence⟩ :=
    reports_of_reachable Inputs.small hs hp (k := 0) (r := r) (by rw [hr]; rfl)
  exact ⟨s, p, r, hs, hp, hr, hid, hclass, hconfidence rfl⟩

end App
