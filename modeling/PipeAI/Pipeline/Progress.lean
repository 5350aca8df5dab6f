import PipeAI.Pipeline.Backpressure
import PipeAI.Pipeline.Signals
import Mathlib.Data.Fintype.Sum
import Mathlib.Data.Fintype.Option

/-!
# Progress

Once `start` has returned true, and until `stop` is called, the workers are in their loops and the
queues are open (`running_of_up`, `alive_of_up`, `open_of_up`).  A step then makes progress, or
leaves everything that counts where it is (`Step.still_or_progress`).

While the result of a complete block of samples is awaited, some stage has something to do.  The
last one finds a value to pop, or room for what it pushes (`Awaiting.ready`); and either its thread
waits nowhere, or it waits for a signal that another thread has still to send
(`Awaiting.exists_helpful`).  The threads are finitely many.
-/

namespace Pipeline

variable {σ K : Type}

instance : Fintype Stage where
  elems := {.preprocess, .inference, .post}
  complete k := by cases k <;> decide

/-- The threads are the stages, the thread that calls `start` and `stop`, and those that call
`submit`. -/
def Thread.equiv (σ : Type) : Stage ⊕ Option σ ≃ Thread σ where
  toFun
    | .inl k => .stage k
    | .inr none => .control
    | .inr (some i) => .submitter i
  invFun
    | .stage k => .inl k
    | .control => .inr none
    | .submitter i => .inr (some i)
  left_inv := by rintro (k | _ | i) <;> rfl
  right_inv := by rintro (k | _ | i) <;> rfl

instance [Fintype σ] : Fintype (Thread σ) :=
  Fintype.ofEquiv _ (Thread.equiv σ)

instance : Nonempty (Thread σ) :=
  ⟨.control⟩

/-! ### Started pipelines -/

/-- A call of `start` has returned true, and `stop` has not been called. -/
def Core.Up (c : Core σ K) : Prop :=
  .started true ∈ c.lifecycle ∧ ¬ c.StopCalled

variable [Field K] [LinearOrder K] [DecidableEq σ] {P : Params K}

/-- The pipeline stays up until `stop` is called. -/
theorem Core.Up.step {s s' : State σ K} {t : Thread σ} (h : s.core.Up) (hstep : Step P s t s')
    (hnot : ¬ s'.core.StopCalled) :
  s'.core.Up
  := ⟨hstep.lifecycle_prefix.subset h.1, hnot⟩

/-- All flags are set while the pipeline is up. -/
theorem running_of_up {s : State σ K} (h : (system σ P).Reachable s) (hup : s.core.Up) :
  s.core.Running
  := by
  intro k
  obtain ⟨hstarted, hnot⟩ := hup
  apply (flagged_of_reachable h).going hstarted (fun hmem => hnot (Or.inl hmem)) k
  intro hpast
  apply hnot
  right
  cases hp : s.core.control with
  | stopping k' => trivial
  | testing k' => trivial
  | joining k' => trivial
  | _ =>
      rw [hp] at hpast
      cases hpast

/-- Before `stop` is called it has not been called. -/
theorem Step.not_stopCalled {s s' : State σ K} {t : Thread σ} (h : Step P s t s')
    (hnot : ¬ s'.core.StopCalled) :
  ¬ s.core.StopCalled
  := by
  intro hcalled
  apply hnot
  obtain ⟨-, a, hc⟩ | ⟨hcontrol, hlife, -⟩ := h.control_cases
  · apply hc.stopCalled hcalled
  · rw [Core.StopCalled, hcontrol, hlife]
    apply hcalled

omit [Field K] [LinearOrder K] [DecidableEq σ] in
/-- While all flags are set, a step of `start` takes none, and leaves the threads. -/
theorem ControlStep.start_loses {c c' : Core σ K} {a : Action K} (h : ControlStep c a c')
    (hr : c.Running) (hassign : ∀ k ok, c.control ≠ .assigning k ok) (hnot : ¬ c'.StopCalled) :
  c'.worker = c.worker ∧ ∀ k ok, c'.control ≠ .assigning k ok
  := by
  have hin : ∀ {p : ControlPc}, c'.control = p → ¬ p.InStop := by
    rintro p rfl hin
    apply hnot (Or.inr hin)
  cases h with
  | invokeStart hp => exact ⟨rfl, by simp⟩
  | @startLoses k ok hp hx =>
      rw [Worker.exchange_of_eq hx, Core.setWorker_self]
      refine ⟨rfl, ?_⟩
      intro k' ok'
      cases k <;> simp [Core.nextStart, Stage.next]
  | @startWins k ok hp hx =>
      have hfalse : (c.worker k).running = false := hx
      cases (hr k).symm.trans hfalse
  | assign hp hw => apply absurd hp (hassign _ _)
  | invokeStop hp => apply absurd trivial (hin rfl)
  | callClose hp => apply absurd trivial (hin rfl)
  | @closeReturns k hp => cases k <;> apply absurd trivial (hin rfl)
  | stopWins hp hx => apply absurd trivial (hin rfl)
  | joinable hp hj => apply absurd trivial (hin rfl)
  | @stopLoses k hp hx =>
      have hfalse : (c.worker k).running = false := hx
      cases (hr k).symm.trans hfalse
  | @notJoinable k hp hj =>
      refine ⟨rfl, ?_⟩
      intro k' ok'
      cases k <;> simp [Core.nextStop, Stage.next]
  | @join k hp hx =>
      apply absurd _ hnot
      cases k with
      | post => exact Or.inl (List.mem_append_right _ (List.mem_singleton.mpr rfl))
      | _ => exact Or.inr trivial

/-- While the pipeline is up, `start` is at no assignment of a thread. -/
theorem not_assigning_of_up {s : State σ K} (h : (system σ P).Reachable s) :
  s.core.Up → ∀ k ok, s.core.control ≠ .assigning k ok
  := by
  apply h.invariant
  · rintro s rfl - k ok hp
    cases hp
  · intro s t s' hs ih hstep hup k ok hp
    have hnot := hstep.not_stopCalled hup.2
    obtain ⟨-, a, hc⟩ | ⟨hcontrol, hlife, -⟩ := hstep.control_cases
    · obtain ⟨hlife, -⟩ := hc.inStart (by rw [hp]; trivial)
      rw [Core.Up, hlife] at hup
      have hup' : s.core.Up := ⟨hup.1, hnot⟩
      apply (hc.start_loses (running_of_up hs hup') (ih hup') hup.2).2 k ok hp
    · rw [Core.Up, hlife] at hup
      rw [hcontrol] at hp
      apply ih ⟨hup.1, hnot⟩ k ok hp

/-- While the pipeline is up, no step of the thread that calls `start` and `stop` changes a worker. -/
theorem Step.worker_of_up {s s' : State σ K} {t : Thread σ} {k : Stage} (h : Step P s t s')
    (hs : (system σ P).Reachable s) (hup : s.core.Up) (hup' : s'.core.Up) (ht : t ≠ .stage k) :
  s'.core.worker k = s.core.worker k
  := by
  obtain ⟨a, hc, -⟩ | ⟨hcore, -⟩ := h.cases
  · by_cases hcontrol : t = .control
    · subst hcontrol
      have hassign := not_assigning_of_up hs hup
      rw [(ControlStep.start_loses hc (running_of_up hs hup) hassign hup'.2).1]
    · apply hc.worker ht hcontrol
  · rw [hcore]

/-- While the pipeline is up, the threads of the workers have not ended. -/
theorem alive_of_up {s : State σ K} (h : (system σ P).Reachable s) (hup : s.core.Up) (k : Stage) :
  Alive (s.core.worker k)
  := by
  apply alive_of_running h _ (running_of_up h hup k)
  have hassign := not_assigning_of_up h hup
  have hin : ¬ s.core.control.InStop := fun hin => hup.2 (Or.inr hin)
  cases hp : s.core.control with
  | idle => exact id
  | close k' => exact id
  | closing k' => exact id
  | starting k' ok =>
      rw [ControlPc.callPc]
      split <;> exact id
  | assigning k' ok => apply absurd hp (hassign k' ok)
  | _ =>
      rw [hp] at hin
      apply absurd trivial hin

/-! ### Counts -/

/-- While the pipeline is up, no queue is closed. -/
theorem open_of_up {s : State σ K} (h : (system σ P).Reachable s) (hup : s.core.Up) :
  s.raw_queue.shared.closed = false ∧ s.tensor_queue.shared.closed = false
    ∧ s.result_queue.shared.closed = false
  := ⟨open_of_not_stopCalled h hup.2 .preprocess, open_of_not_stopCalled h hup.2 .inference,
    open_of_not_stopCalled h hup.2 .post⟩

/-- The results taken from the result queue are those delivered and the one the third stage has in
hand. -/
theorem taken_results {s : State σ K} (h : (system σ P).Reachable s) :
  (BlockingQueue.taken s.result_queue.log).length
    = s.core.callbacks.length + s.thirdInput.length
  := by
  obtain ⟨L, hconsumed, hcallbacks⟩ := posting_of_reachable h
  rw [hconsumed, hcallbacks, State.thirdInput]
  simp only [List.length_append, List.length_map, Nat.add_assoc]

/-- The tensors taken from the tensor queue are those inferred and the one the second stage has in
hand. -/
theorem taken_tensors {s : State σ K} (h : (system σ P).Reachable s) :
  (BlockingQueue.taken s.tensor_queue.log).length
    = s.core.inferred.length + s.secondInput.length
  := by
  obtain ⟨hconsumed, -, -⟩ := inferring_of_reachable h
  rw [hconsumed, State.secondInput]
  simp only [List.length_append, List.length_map, Nat.add_assoc]

/-- While the pipeline is up, the tensors inferred are those of the results accepted, and of the one
the second stage has in hand. -/
theorem inferred_of_up {s : State σ K} (h : (system σ P).Reachable s) (hup : s.core.Up) :
  s.core.inferred.length
    = (BlockingQueue.accepted s.result_queue.log).length + s.secondOutput.length
  := by
  obtain ⟨-, ⟨L, hoffered, hresults⟩, -⟩ := inferring_of_reachable h
  have hlen := congrArg List.length hresults
  rw [hoffered.complete (open_of_up h hup).2.2] at hlen
  rw [State.secondOutput, List.length_append]
  simpa [resultsOf] using hlen

/-- While the pipeline is up, the windows are those of the tensors accepted, and of the one the
first stage has in hand. -/
theorem windows_of_up {s : State σ K} (h : (system σ P).Reachable s) (hup : s.core.Up) :
  s.core.windows.length
    = (BlockingQueue.accepted s.tensor_queue.log).length + (s.firstOutput P).length
  := by
  obtain ⟨L, hoffered, hwindows⟩ := transforming_of_reachable h
  rw [hoffered.complete (open_of_up h hup).2.1] at hwindows
  rw [← length_filterMap_tensorOf (P := P) (forming_of_reachable h).windows, hwindows,
    State.firstOutput]
  simp only [List.length_append, Nat.add_assoc]

omit [Field K] [LinearOrder K] [DecidableEq σ] in
/-- How far the pipeline has come: the values accepted by its queues and taken from them, the
windows formed, the tensors inferred, and the results delivered. -/
def State.progress (s : State σ K) : ℕ :=
  BlockingQueue.traffic s.raw_queue + BlockingQueue.traffic s.tensor_queue
    + BlockingQueue.traffic s.result_queue
    + s.core.windows.length + s.core.inferred.length + s.core.callbacks.length

/-- While the pipeline is up, the progress is bounded in terms of the results delivered. -/
theorem progress_le {s : State σ K} (h : (system σ P).Reachable s) (hup : s.core.Up) {k : ℕ}
    (hk : s.core.callbacks.length ≤ k) :
  s.progress ≤ 9 * ((k + (2 * P.queue_capacity + 3)) * kTargetLength + P.queue_capacity)
  := by
  have haccepted := length_accepted_le h hup.2
  have hbound := Nat.mul_le_mul_right kTargetLength
    (Nat.add_le_add_right hk (2 * P.queue_capacity + 3))
  obtain ⟨hraw, htensor, hresult⟩ := accepted_eq h
  have hraw := congrArg List.length hraw
  have htensor := congrArg List.length htensor
  have hresult := congrArg List.length hresult
  rw [List.length_append] at hraw htensor hresult
  have hsamples := length_accepted_samples h
  have hwindows := windows_of_up h hup
  have hinferred := inferred_of_up h hup
  have htensors := taken_tensors h
  have hresults := taken_results h
  have hsize : s.core.windows.length ≤ s.core.windows.length * kTargetLength :=
    Nat.le_mul_of_pos_right _ (by decide)
  simp only [State.progress, BlockingQueue.traffic]
  omega

/-! ### Steps without progress -/

/-- A step that leaves a queue with its contents and its log. -/
def SameTraffic {T : Type} (q q' : BlockingQueue.State (Thread σ) T) : Prop :=
  q'.shared = q.shared ∧ q'.log = q.log

omit [Field K] [LinearOrder K] [DecidableEq σ] in
/-- A step without progress: the queues keep their contents and their logs, no window is formed, no
tensor inferred, and no result delivered. -/
structure Still (s s' : State σ K) : Prop where
  raw : SameTraffic s.raw_queue s'.raw_queue
  tensor : SameTraffic s.tensor_queue s'.tensor_queue
  result : SameTraffic s.result_queue s'.result_queue
  windows : s'.core.windows.length = s.core.windows.length
  inferred : s'.core.inferred.length = s.core.inferred.length
  callbacks : s'.core.callbacks.length = s.core.callbacks.length

/-- What a step of the core does to the windows, the tensors inferred and the results delivered. -/
theorem CoreStep.formed {c c' : Core σ K} {t : Thread σ} {a : Action K} (h : CoreStep P c t a c') :
  (c'.windows.length = c.windows.length ∧ c'.inferred.length = c.inferred.length
      ∧ c'.callbacks.length = c.callbacks.length)
    ∨ c.windows.length + c.inferred.length + c.callbacks.length
      < c'.windows.length + c'.inferred.length + c'.callbacks.length
  := by
  rcases t with (_ | _ | _) | _ | i
  · cases h with
    | swap hp hsize =>
        right
        simp only [List.length_append, List.length_singleton]
        omega
    | _ => exact Or.inl ⟨rfl, rfl, rfl⟩
  · cases h with
    | infer hp a =>
        right
        simp only [List.length_append, List.length_singleton]
        omega
    | _ => exact Or.inl ⟨rfl, rfl, rfl⟩
  · cases h with
    | callback hp =>
        right
        simp only [List.length_append, List.length_singleton]
        omega
    | _ => exact Or.inl ⟨rfl, rfl, rfl⟩
  · cases h <;> exact Or.inl ⟨rfl, rfl, rfl⟩
  · cases h <;> exact Or.inl ⟨rfl, rfl, rfl⟩

omit [Field K] [LinearOrder K] [DecidableEq σ] in
/-- The operations called on the queues have no limit of time. -/
theorem Synced.untimed {s : State σ K} (h : Synced s) (t : Thread σ) :
  (∀ op, (s.raw_queue.phase t).view = .before op → op.Untimed)
    ∧ (∀ op, (s.tensor_queue.phase t).view = .before op → op.Untimed)
    ∧ ∀ op, (s.result_queue.phase t).view = .before op → op.Untimed
  := by
  refine ⟨?_, ?_, ?_⟩
  · intro op hv
    obtain ⟨-, -, hop⟩ | ⟨-, -, hop⟩ | ⟨i, sample, -, -, hop⟩ :=
      Core.rawCall_cases ((h.raw t).of_before hv)
    · exact Or.inl hop
    · exact Or.inr (Or.inl hop)
    · exact Or.inr (Or.inr ⟨_, hop⟩)
  · intro op hv
    obtain ⟨input, -, -, hop⟩ | ⟨-, -, hop⟩ | ⟨-, -, hop⟩ :=
      Core.tensorCall_cases ((h.tensor t).of_before hv)
    · exact Or.inr (Or.inr ⟨_, hop⟩)
    · exact Or.inl hop
    · exact Or.inr (Or.inl hop)
  · intro op hv
    obtain ⟨result, -, -, hop⟩ | ⟨-, -, hop⟩ | ⟨-, -, hop⟩ :=
      Core.resultCall_cases ((h.result t).of_before hv)
    · exact Or.inr (Or.inr ⟨_, hop⟩)
    · exact Or.inl hop
    · exact Or.inr (Or.inl hop)

omit [DecidableEq σ] in
/-- A step inside a queue without an effect leaves its contents and its log. -/
theorem sameTraffic_of_silent {T : Type} {q q' : BlockingQueue.State (Thread σ) T}
    (h : Monitor.Silent q q') :
  SameTraffic q q'
  := ⟨h.shared, h.log⟩

/-- A step that leaves the pipeline up makes progress, or changes nothing that counts. -/
theorem Step.still_or_progress {s s' : State σ K} {t : Thread σ} (h : Step P s t s')
    (hs : (system σ P).Reachable s) (hup : s'.core.Up) :
  s.progress < s'.progress ∨ Still s s'
  := by
  obtain ⟨hraw, htensor, hresult⟩ := (synced_of_reachable hs).untimed t
  obtain ⟨hopen₁, hopen₂, hopen₃⟩ := open_of_up (hs.step h) hup
  have hrefl : ∀ {T : Type} {q q' : BlockingQueue.State (Thread σ) T}, q' = q →
      SameTraffic q q' := by
    rintro T q _ rfl
    exact ⟨rfl, rfl⟩
  simp only [State.progress]
  obtain ⟨a, hc, hraw', htensor', hresult'⟩ | ⟨hcore, ⟨hq, h₁, h₂⟩ | ⟨hq, h₁, h₂⟩ | ⟨hq, h₁, h₂⟩⟩ :=
    h.cases
  · rw [BlockingQueue.traffic, BlockingQueue.traffic, BlockingQueue.traffic,
      BlockingQueue.traffic, BlockingQueue.traffic, BlockingQueue.traffic, hraw'.same.2,
      htensor'.same.2, hresult'.same.2]
    obtain ⟨hwindows, hinferred, hcallbacks⟩ | hlt := hc.formed
    · right
      exact ⟨hraw'.same, htensor'.same, hresult'.same, hwindows, hinferred, hcallbacks⟩
    · left
      omega
  · rw [hcore, h₁, h₂]
    obtain hsilent | hlt := BlockingQueue.silent_or_traffic_lt hraw hopen₁ hq
    · right
      exact ⟨sameTraffic_of_silent hsilent, hrefl h₁, hrefl h₂, by rw [hcore], by rw [hcore],
        by rw [hcore]⟩
    · left
      omega
  · rw [hcore, h₁, h₂]
    obtain hsilent | hlt := BlockingQueue.silent_or_traffic_lt htensor hopen₂ hq
    · right
      exact ⟨hrefl h₁, sameTraffic_of_silent hsilent, hrefl h₂, by rw [hcore], by rw [hcore],
        by rw [hcore]⟩
    · left
      omega
  · rw [hcore, h₁, h₂]
    obtain hsilent | hlt := BlockingQueue.silent_or_traffic_lt hresult hopen₃ hq
    · right
      exact ⟨hrefl h₁, hrefl h₂, sameTraffic_of_silent hsilent, by rw [hcore], by rw [hcore],
        by rw [hcore]⟩
    · left
      omega

/-! ### The last stage that has something to do -/

/-- What a step does with the queues. -/
theorem Step.touches {s s' : State σ K} {t : Thread σ} (h : Step P s t s') :
  BlockingQueue.Touches s.raw_queue t s'.raw_queue
    ∧ BlockingQueue.Touches s.tensor_queue t s'.tensor_queue
    ∧ BlockingQueue.Touches s.result_queue t s'.result_queue
  := by
  obtain ⟨a, -, hraw, htensor, hresult⟩ | ⟨-, ⟨hq, h₁, h₂⟩ | ⟨hq, h₁, h₂⟩ | ⟨hq, h₁, h₂⟩⟩ := h.cases
  · exact ⟨Or.inl ⟨_, hraw⟩, Or.inl ⟨_, htensor⟩, Or.inl ⟨_, hresult⟩⟩
  · exact ⟨Or.inr hq, Or.inl ⟨.none, h₁⟩, Or.inl ⟨.none, h₂⟩⟩
  · exact ⟨Or.inl ⟨.none, h₁⟩, Or.inr hq, Or.inl ⟨.none, h₂⟩⟩
  · exact ⟨Or.inl ⟨.none, h₁⟩, Or.inl ⟨.none, h₂⟩, Or.inr hq⟩

/-- In every reachable state, the first and the second stage have found nothing to pop only when
their input queue is closed and empty. -/
theorem emptied_inputs {s : State σ K} (h : (system σ P).Reachable s) :
  BlockingQueue.Emptied s.raw_queue (.stage .preprocess)
    ∧ BlockingQueue.Emptied s.tensor_queue (.stage .inference)
  := by
  constructor
  · apply BlockingQueue.emptied_of_touches (q := State.raw_queue) _ _ _ h
    · rintro s rfl
      rfl
    · intro s t s' _ hstep
      apply (Step.touches hstep).1
    · intro s hs op hv hop
      obtain ⟨-, -, hpop⟩ | ⟨ht, -⟩ | ⟨i, sample, ht, -⟩ :=
        Core.rawCall_cases (((synced_of_reachable hs).raw _).of_before hv)
      · apply hpop
      · cases ht
      · cases ht
  · apply BlockingQueue.emptied_of_touches (q := State.tensor_queue) _ _ _ h
    · rintro s rfl
      rfl
    · intro s t s' _ hstep
      apply (Step.touches hstep).2.1
    · intro s hs op hv hop
      obtain ⟨input, ht, -⟩ | ⟨-, -, hpop⟩ | ⟨ht, -⟩ :=
        Core.tensorCall_cases (((synced_of_reachable hs).tensor _).of_before hv)
      · cases ht
      · apply hpop
      · cases ht

omit [Field K] [LinearOrder K] [DecidableEq σ] in
/-- The last stage that has something to do: the third one if a result has been accepted and not
delivered, else the second one if a tensor has been accepted and its result has not, else the
first one. -/
def State.server (s : State σ K) : Stage :=
  if s.core.callbacks.length < (BlockingQueue.accepted s.result_queue.log).length then .post
  else if (BlockingQueue.accepted s.result_queue.log).length
    < (BlockingQueue.accepted s.tensor_queue.log).length then .inference
  else .preprocess

omit [Field K] [LinearOrder K] [DecidableEq σ] in
theorem State.server_cases (s : State σ K) :
  (s.server = .post
      ∧ s.core.callbacks.length < (BlockingQueue.accepted s.result_queue.log).length)
    ∨ (s.server = .inference
      ∧ (BlockingQueue.accepted s.result_queue.log).length ≤ s.core.callbacks.length
      ∧ (BlockingQueue.accepted s.result_queue.log).length
        < (BlockingQueue.accepted s.tensor_queue.log).length)
    ∨ (s.server = .preprocess
      ∧ (BlockingQueue.accepted s.result_queue.log).length ≤ s.core.callbacks.length
      ∧ (BlockingQueue.accepted s.tensor_queue.log).length
        ≤ (BlockingQueue.accepted s.result_queue.log).length)
  := by
  rw [State.server]
  split
  · rename_i h
    exact Or.inl ⟨rfl, h⟩
  · rename_i h
    split
    · rename_i h'
      exact Or.inr (Or.inl ⟨rfl, Nat.le_of_not_lt h, h'⟩)
    · rename_i h'
      exact Or.inr (Or.inr ⟨rfl, Nat.le_of_not_lt h, Nat.le_of_not_lt h'⟩)

omit [Field K] [LinearOrder K] [DecidableEq σ] in
/-- A step without progress leaves the last stage that has something to do. -/
theorem Still.server {s s' : State σ K} (h : Still s s') :
  s'.server = s.server
  := by
  rw [State.server, State.server, h.result.2, h.tensor.2, h.callbacks]

omit [Field K] [LinearOrder K] [DecidableEq σ] in
/-- A step without progress makes none. -/
theorem Still.progress {s s' : State σ K} (h : Still s s') :
  s'.progress = s.progress
  := by
  simp only [State.progress, BlockingQueue.traffic, h.raw.2, h.tensor.2, h.result.2, h.windows,
    h.inferred, h.callbacks]

/-- The pipeline is up, and the block of samples that `k` blocks come before has been accepted, but
its result has not been delivered. -/
structure Awaiting (P : Params K) (k : ℕ) (s : State σ K) : Prop where
  reachable : (system σ P).Reachable s
  up : s.core.Up
  undelivered : s.core.callbacks.length ≤ k
  accepted : (k + 1) * kTargetLength ≤ (BlockingQueue.accepted s.raw_queue.log).length

/-- While the pipeline is up, the results accepted are those delivered, and what the third stage has
in hand and in its input queue; and so for the tensors and the second stage. -/
theorem counts_of_up {s : State σ K} (h : (system σ P).Reachable s) (hup : s.core.Up) :
  (BlockingQueue.accepted s.result_queue.log).length
      = s.core.callbacks.length + s.thirdInput.length + s.result_queue.shared.queue.length
    ∧ (BlockingQueue.accepted s.tensor_queue.log).length
      = (BlockingQueue.accepted s.result_queue.log).length + s.secondOutput.length
        + s.secondInput.length + s.tensor_queue.shared.queue.length
  := by
  obtain ⟨-, htensor, hresult⟩ := accepted_eq h
  have htensor := congrArg List.length htensor
  have hresult := congrArg List.length hresult
  rw [List.length_append] at htensor hresult
  have hinferred := inferred_of_up h hup
  have htensors := taken_tensors h
  have hresults := taken_results h
  omega

omit [Field K] [LinearOrder K] [DecidableEq σ] in
/-- At the call of `pop`, the third stage has nothing in hand before it has taken a result. -/
theorem thirdInput_of_before {s : State σ K} (hp : s.core.post = .popping)
    {op : BlockingQueue.Op (InferenceResult K)}
    (hv : (s.result_queue.phase (.stage .post)).view = .before op) :
  s.thirdInput = []
  := by
  rw [State.thirdInput, hp, hv]
  rfl

omit [Field K] [LinearOrder K] [DecidableEq σ] in
/-- At the call of `pop`, the second stage has nothing in hand before it has taken a tensor. -/
theorem second_of_before {s : State σ K} (h : Synced s) (hp : s.core.inference = .popping)
    {op : BlockingQueue.Op (ModelInput K)}
    (hv : (s.tensor_queue.phase (.stage .inference)).view = .before op) :
  s.secondInput = [] ∧ s.secondOutput = []
  := by
  have hresult := h.result (.stage .inference)
  rw [Core.resultCall, Core.calling, hp] at hresult
  rw [State.secondInput, State.secondOutput, hp, hv, (BlockingQueue.nothing_of_idle hresult).2]
  exact ⟨rfl, rfl⟩

omit [DecidableEq σ] in
/-- At the call of `pop`, the first stage has no window in hand, and no sample before it has taken
one. -/
theorem first_of_before {s : State σ K} (h : Synced s) (hp : s.core.preprocess = .popping)
    {op : BlockingQueue.Op (RawSample K)}
    (hv : (s.raw_queue.phase (.stage .preprocess)).view = .before op) :
  s.firstOutput P = [] ∧ s.inHand = []
  := by
  have htensor := h.tensor (.stage .preprocess)
  rw [Core.tensorCall, Core.calling, hp] at htensor
  rw [State.firstOutput, State.inHand, hp, hv, (BlockingQueue.nothing_of_idle htensor).2]
  exact ⟨rfl, rfl⟩

omit [Field K] [LinearOrder K] [DecidableEq σ] in
/-- The stage finds a value to pop, and room for what it pushes. -/
def State.ReadyAt (s : State σ K) (k : Stage) : Prop :=
  (∀ op, (s.raw_queue.phase (.stage k)).view = .before op →
      (BlockingQueue.monitor _).ready op s.raw_queue.shared = true)
    ∧ (∀ op, (s.tensor_queue.phase (.stage k)).view = .before op →
      (BlockingQueue.monitor _).ready op s.tensor_queue.shared = true)
    ∧ ∀ op, (s.result_queue.phase (.stage k)).view = .before op →
      (BlockingQueue.monitor _).ready op s.result_queue.shared = true

/-- The last stage that has something to do finds a value to pop, and room for what it pushes. -/
theorem Awaiting.ready {k : ℕ} {s : State σ K} (h : Awaiting P k s) :
  s.ReadyAt s.server
  := by
  have hsynced := synced_of_reachable h.reachable
  obtain ⟨hopen₁, hopen₂, hopen₃⟩ := open_of_up h.reachable h.up
  obtain ⟨hresults, htensors⟩ := counts_of_up h.reachable h.up
  have hserver := s.server_cases
  refine ⟨?_, ?_, ?_⟩
  · intro op hv
    obtain ⟨ht, hp, rfl⟩ | ⟨ht, -⟩ | ⟨i, sample, ht, -⟩ :=
      Core.rawCall_cases ((hsynced.raw _).of_before hv)
    · injection ht with ht
      rw [ht] at hv hserver
      obtain ⟨hfirst, hhand⟩ := first_of_before (P := P) hsynced hp hv
      have hwindows := windows_of_up h.reachable h.up
      have hsamples := length_accepted_samples h.reachable
      have hbuffer := (forming_of_reachable h.reachable).buffer
      rw [hp] at hbuffer
      have hbuffer : s.core.window_buffer.length ≤ kTargetLength - 1 := hbuffer
      rw [hfirst] at hwindows
      rw [hhand] at hsamples
      obtain ⟨hpost, -⟩ | ⟨hinf, -⟩ | ⟨-, hle, hle'⟩ := hserver
      · cases hpost
      · cases hinf
      · have hmul := Nat.mul_le_mul_right kTargetLength
          (show s.core.windows.length ≤ k by have := h.undelivered; simp at hwindows; omega)
        have haccepted := h.accepted
        rw [Nat.succ_mul] at haccepted
        have hpos : 0 < kTargetLength := by decide
        simp only [List.length_nil] at hsamples
        apply BlockingQueue.ready_pop_of_ne_nil
        rintro hnil
        rw [hnil, List.length_nil] at hsamples
        omega
    · cases ht
    · cases ht
  · intro op hv
    obtain ⟨input, ht, -, rfl⟩ | ⟨ht, hp, rfl⟩ | ⟨ht, -⟩ :=
      Core.tensorCall_cases ((hsynced.tensor _).of_before hv)
    · injection ht with ht
      rw [ht] at hserver
      obtain ⟨hpost, -⟩ | ⟨hinf, -⟩ | ⟨-, hle, hle'⟩ := hserver
      · cases hpost
      · cases hinf
      · apply (BlockingQueue.push_of_room hopen₂ _ input).1
        have hpos := s.tensor_queue.shared.capacity_pos
        omega
    · injection ht with ht
      rw [ht] at hv hserver
      obtain ⟨hinput, houtput⟩ := second_of_before hsynced hp hv
      obtain ⟨hpost, -⟩ | ⟨-, -, hlt⟩ | ⟨hpre, -⟩ := hserver
      · cases hpost
      · apply BlockingQueue.ready_pop_of_ne_nil
        rintro hnil
        rw [hinput, houtput, hnil] at htensors
        simp only [List.length_nil] at htensors
        omega
      · cases hpre
    · cases ht
  · intro op hv
    obtain ⟨result, ht, -, rfl⟩ | ⟨ht, hp, rfl⟩ | ⟨ht, -⟩ :=
      Core.resultCall_cases ((hsynced.result _).of_before hv)
    · injection ht with ht
      rw [ht] at hserver
      obtain ⟨hpost, -⟩ | ⟨-, hle, -⟩ | ⟨hpre, -⟩ := hserver
      · cases hpost
      · apply (BlockingQueue.push_of_room hopen₃ _ result).1
        have hpos := s.result_queue.shared.capacity_pos
        omega
      · cases hpre
    · injection ht with ht
      rw [ht] at hv hserver
      have hinput := thirdInput_of_before hp hv
      obtain ⟨-, hlt⟩ | ⟨hinf, -⟩ | ⟨hpre, -⟩ := hserver
      · apply BlockingQueue.ready_pop_of_ne_nil
        rintro hnil
        rw [hinput, hnil] at hresults
        simp only [List.length_nil] at hresults
        omega
      · cases hinf
      · cases hpre
    · cases ht

/-! ### Helpful threads -/

omit [Field K] [LinearOrder K] [DecidableEq σ] in
/-- The stage waits in its input queue. -/
def State.WaitsForInput (s : State σ K) : Stage → Prop
  | .preprocess => s.raw_queue.phase (.stage .preprocess) = .waiting .pop
  | .inference => s.tensor_queue.phase (.stage .inference) = .waiting .pop
  | .post => s.result_queue.phase (.stage .post) = .waiting .pop

omit [Field K] [LinearOrder K] [DecidableEq σ] in
/-- The thread has pushed to the input queue of a stage, and has still to send its signal. -/
def State.NotifiesInput (s : State σ K) (k : Stage) (t : Thread σ) : Prop :=
  match k with
  | .preprocess => BlockingQueue.Notifies s.raw_queue t
  | .inference => BlockingQueue.Notifies s.tensor_queue t
  | .post => BlockingQueue.Notifies s.result_queue t

omit [Field K] [LinearOrder K] [DecidableEq σ] in
/-- The thread is helpful: it is that of the last stage that has something to do, and does not wait,
or it has still to send the signal that wakes this stage. -/
def State.Helpful (s : State σ K) (t : Thread σ) : Prop :=
  (¬ s.Waits (.stage s.server) ∧ t = .stage s.server)
    ∨ (s.WaitsForInput s.server ∧ s.NotifiesInput s.server t)

omit [Field K] [LinearOrder K] [DecidableEq σ] in
/-- The thread is in a call of `start`, `stop` or `submit`, or is that of a worker, and waits in no
queue. -/
def State.Active (s : State σ K) (t : Thread σ) : Prop :=
  ¬ s.Waits t ∧ (t = .control → s.core.control ≠ .idle)
    ∧ ∀ i, t = .submitter i → s.core.submitting i ≠ none

omit [Field K] [LinearOrder K] [DecidableEq σ] in
/-- A thread that has taken a tensor is the second stage, and has it in hand. -/
theorem Synced.secondInput_ne_nil {s : State σ K} (h : Synced s) {t : Thread σ}
    {value : ModelInput K} {pending : List (Signal BlockingQueue.Cond)}
    (hp : s.tensor_queue.phase t = .leaving (.popped (some value)) pending) :
  s.secondInput ≠ []
  := by
  obtain ⟨op, hcall, hreturns⟩ := (h.tensor t).of_after (by rw [hp]; rfl)
  have hinput : BlockingQueue.inHand (s.tensor_queue.phase t).view ≠ [] := by
    rw [hp]
    simp [BlockingQueue.takenValue]
  obtain ⟨input, -, -, rfl⟩ | ⟨rfl, -, -⟩ | ⟨-, -, rfl⟩ := Core.tensorCall_cases hcall
  · cases BlockingQueue.eq_pop_of_returns (Or.inr (Or.inr ⟨_, rfl⟩)) hreturns
  · rw [State.secondInput]
    apply List.append_ne_nil_of_right_ne_nil _ hinput
  · cases BlockingQueue.eq_pop_of_returns (Or.inr (Or.inl rfl)) hreturns

omit [Field K] [LinearOrder K] [DecidableEq σ] in
/-- A thread that has taken a result is the third stage, and has it in hand. -/
theorem Synced.thirdInput_ne_nil {s : State σ K} (h : Synced s) {t : Thread σ}
    {value : InferenceResult K} {pending : List (Signal BlockingQueue.Cond)}
    (hp : s.result_queue.phase t = .leaving (.popped (some value)) pending) :
  s.thirdInput ≠ []
  := by
  obtain ⟨op, hcall, hreturns⟩ := (h.result t).of_after (by rw [hp]; rfl)
  have hinput : BlockingQueue.inHand (s.result_queue.phase t).view ≠ [] := by
    rw [hp]
    simp [BlockingQueue.takenValue]
  obtain ⟨result, -, -, rfl⟩ | ⟨rfl, -, -⟩ | ⟨-, -, rfl⟩ := Core.resultCall_cases hcall
  · cases BlockingQueue.eq_pop_of_returns (Or.inr (Or.inr ⟨_, rfl⟩)) hreturns
  · rw [State.thirdInput]
    apply List.append_ne_nil_of_right_ne_nil _ hinput
  · cases BlockingQueue.eq_pop_of_returns (Or.inr (Or.inl rfl)) hreturns

/-- The queues of a reachable state are in reachable states of their own. -/
theorem queues_reachable {s : State σ K} (h : (system σ P).Reachable s) :
  ((BlockingQueue.monitor _).system (Thread σ)
      (.empty (RawSample K) P.queue_capacity P.capacity_pos)).Reachable s.raw_queue
    ∧ ((BlockingQueue.monitor _).system (Thread σ)
      (.empty (ModelInput K) P.queue_capacity P.capacity_pos)).Reachable s.tensor_queue
    ∧ ((BlockingQueue.monitor _).system (Thread σ)
      (.empty (InferenceResult K) P.queue_capacity P.capacity_pos)).Reachable s.result_queue
  := ⟨(rawProjection σ P).reachable h, (tensorProjection σ P).reachable h,
    (resultProjection σ P).reachable h⟩

/-- The last stage that has something to do waits in no queue but its input queue. -/
theorem Awaiting.waitsForInput [Fintype σ] {k : ℕ} {s : State σ K} (h : Awaiting P k s)
    (hw : s.Waits (.stage s.server)) :
  s.WaitsForInput s.server
  := by
  have hsynced := synced_of_reachable h.reachable
  obtain ⟨-, htensor, hresult⟩ := queues_reachable h.reachable
  obtain ⟨-, hopen₂, hopen₃⟩ := open_of_up h.reachable h.up
  obtain ⟨-, hready₂, hready₃⟩ := h.ready
  obtain ⟨hresults, htensors⟩ := counts_of_up h.reachable h.up
  have hserver := s.server_cases
  obtain ⟨op, hop⟩ | ⟨op, hop⟩ | ⟨op, hop⟩ := hw
  · have hv : (s.raw_queue.phase (.stage s.server)).view = .before op := by rw [hop]; rfl
    obtain ⟨ht, -, rfl⟩ | ⟨ht, -⟩ | ⟨i, sample, ht, -⟩ :=
      Core.rawCall_cases ((hsynced.raw _).of_before hv)
    · injection ht with ht
      rw [ht] at hop ⊢
      apply hop
    · cases ht
    · cases ht
  · have hv : (s.tensor_queue.phase (.stage s.server)).view = .before op := by rw [hop]; rfl
    obtain ⟨input, ht, -, rfl⟩ | ⟨ht, -, rfl⟩ | ⟨ht, -⟩ :=
      Core.tensorCall_cases ((hsynced.tensor _).of_before hv)
    · injection ht with ht
      have hroom := BlockingQueue.room_of_ready_push (hready₂ _ hv) hopen₂
      rw [ht] at hop hserver
      obtain ⟨u, value, hu⟩ :=
        BlockingQueue.exists_popped htensor hopen₂ hsynced.tensorPushes hop hroom
      have hpos := List.length_pos_iff.mpr (hsynced.secondInput_ne_nil hu)
      obtain ⟨hpost, -⟩ | ⟨hinf, -⟩ | ⟨-, -, hle⟩ := hserver
      · cases hpost
      · cases hinf
      · omega
    · injection ht with ht
      rw [ht] at hop ⊢
      apply hop
    · cases ht
  · have hv : (s.result_queue.phase (.stage s.server)).view = .before op := by rw [hop]; rfl
    obtain ⟨result, ht, -, rfl⟩ | ⟨ht, -, rfl⟩ | ⟨ht, -⟩ :=
      Core.resultCall_cases ((hsynced.result _).of_before hv)
    · injection ht with ht
      have hroom := BlockingQueue.room_of_ready_push (hready₃ _ hv) hopen₃
      rw [ht] at hop hserver
      obtain ⟨u, value, hu⟩ :=
        BlockingQueue.exists_popped hresult hopen₃ hsynced.resultPushes hop hroom
      have hpos := List.length_pos_iff.mpr (hsynced.thirdInput_ne_nil hu)
      obtain ⟨hpost, -⟩ | ⟨-, hle, -⟩ | ⟨hpre, -⟩ := hserver
      · cases hpost
      · omega
      · cases hpre
    · injection ht with ht
      rw [ht] at hop ⊢
      apply hop
    · cases ht

/-- There is a helpful thread. -/
theorem Awaiting.exists_helpful [Fintype σ] {k : ℕ} {s : State σ K} (h : Awaiting P k s) :
  ∃ t, s.Helpful t
  := by
  by_cases hw : s.Waits (.stage s.server)
  · have hsynced := synced_of_reachable h.reachable
    obtain ⟨hraw, htensor, hresult⟩ := queues_reachable h.reachable
    obtain ⟨hopen₁, hopen₂, hopen₃⟩ := open_of_up h.reachable h.up
    obtain ⟨hready₁, hready₂, hready₃⟩ := h.ready
    have hinput := h.waitsForInput hw
    have hnotifies : ∃ t, s.NotifiesInput s.server t := by
      revert hinput hready₁ hready₂ hready₃
      cases s.server with
      | preprocess =>
          intro hready₁ _ _ hinput
          have hinput : s.raw_queue.phase (.stage .preprocess) = .waiting .pop := hinput
          apply BlockingQueue.exists_notifies hraw hopen₁ hsynced.rawPops hinput
          apply BlockingQueue.ne_nil_of_ready_pop (hready₁ _ _) hopen₁
          rw [hinput]
          rfl
      | inference =>
          intro _ hready₂ _ hinput
          have hinput : s.tensor_queue.phase (.stage .inference) = .waiting .pop := hinput
          apply BlockingQueue.exists_notifies htensor hopen₂ hsynced.tensorPops hinput
          apply BlockingQueue.ne_nil_of_ready_pop (hready₂ _ _) hopen₂
          rw [hinput]
          rfl
      | post =>
          intro _ _ hready₃ hinput
          have hinput : s.result_queue.phase (.stage .post) = .waiting .pop := hinput
          apply BlockingQueue.exists_notifies hresult hopen₃ hsynced.resultPops hinput
          apply BlockingQueue.ne_nil_of_ready_pop (hready₃ _ _) hopen₃
          rw [hinput]
          rfl
    obtain ⟨t, ht⟩ := hnotifies
    exact ⟨t, Or.inr ⟨hinput, ht⟩⟩
  · exact ⟨_, Or.inl ⟨hw, rfl⟩⟩

omit [Field K] [LinearOrder K] [DecidableEq σ] in
/-- A thread is in a call of at most one queue. -/
theorem Synced.idle_elsewhere {s : State σ K} (h : Synced s) (t : Thread σ) :
  (s.tensor_queue.phase t = .idle ∧ s.result_queue.phase t = .idle)
    ∨ (s.raw_queue.phase t = .idle ∧ s.result_queue.phase t = .idle)
    ∨ (s.raw_queue.phase t = .idle ∧ s.tensor_queue.phase t = .idle)
  := by
  have hraw := h.raw t
  have htensor := h.tensor t
  have hresult := h.result t
  rw [Core.rawCall] at hraw
  rw [Core.tensorCall] at htensor
  rw [Core.resultCall] at hresult
  cases hc : s.core.calling t with
  | none =>
      rw [hc] at htensor hresult
      exact Or.inl ⟨htensor, hresult⟩
  | some call =>
      rw [hc] at hraw htensor hresult
      cases call with
      | raw op => exact Or.inl ⟨htensor, hresult⟩
      | tensor op => exact Or.inr (Or.inl ⟨hraw, hresult⟩)
      | result op => exact Or.inr (Or.inr ⟨hraw, htensor⟩)

omit [Field K] [LinearOrder K] [DecidableEq σ] in
/-- A thread that has still to send the signal of its push waits in no queue. -/
theorem Synced.not_waits_of_notifies {s : State σ K} (h : Synced s) {k : Stage} {t : Thread σ}
    (ht : s.NotifiesInput k t) :
  ¬ s.Waits t
  := by
  have hnot : ∀ {T : Type} {q : BlockingQueue.State (Thread σ) T},
      q.phase t = .idle ∨ BlockingQueue.Notifies q t → ¬ (q.phase t).Waits := by
    rintro T q (hq | hq) ⟨op, hop⟩
    · cases hq.symm.trans hop
    · cases hq.symm.trans hop
  have hne : ∀ {T : Type} {q : BlockingQueue.State (Thread σ) T}, BlockingQueue.Notifies q t →
      q.phase t ≠ .idle := by
    intro T q hq hidle
    cases hq.symm.trans hidle
  have hall : (s.raw_queue.phase t = .idle ∨ BlockingQueue.Notifies s.raw_queue t)
      ∧ (s.tensor_queue.phase t = .idle ∨ BlockingQueue.Notifies s.tensor_queue t)
      ∧ (s.result_queue.phase t = .idle ∨ BlockingQueue.Notifies s.result_queue t) := by
    obtain ⟨h₁, h₂⟩ | ⟨h₁, h₂⟩ | ⟨h₁, h₂⟩ := h.idle_elsewhere t
    · cases k with
      | preprocess => exact ⟨Or.inr ht, Or.inl h₁, Or.inl h₂⟩
      | inference => apply absurd h₁ (hne ht)
      | post => apply absurd h₂ (hne ht)
    · cases k with
      | preprocess => apply absurd h₁ (hne ht)
      | inference => exact ⟨Or.inl h₁, Or.inr ht, Or.inl h₂⟩
      | post => apply absurd h₂ (hne ht)
    · cases k with
      | preprocess => apply absurd h₁ (hne ht)
      | inference => apply absurd h₂ (hne ht)
      | post => exact ⟨Or.inl h₁, Or.inl h₂, Or.inr ht⟩
  rintro (hw | hw | hw)
  · apply hnot hall.1 hw
  · apply hnot hall.2.1 hw
  · apply hnot hall.2.2 hw

/-- A thread that has still to send the signal of its push can send it. -/
theorem enabled_of_notifies {s : State σ K} (h : (system σ P).Reachable s) {k : Stage}
    {t : Thread σ} (ht : s.NotifiesInput k t) :
  (system σ P).Enabled t s
  := by
  have hstep : ∀ {T : Type} {q₀ : BlockingQueue T} {q : BlockingQueue.State (Thread σ) T},
      ((BlockingQueue.monitor T).system (Thread σ) q₀).Reachable q → BlockingQueue.Notifies q t →
      ∃ q', (BlockingQueue.monitor T).Internal q t q' := by
    intro T q₀ q hq hn
    have hn : q.phase t = .leaving (.pushed true) [.one .notEmpty] := hn
    obtain hq' | ⟨r, hr⟩ := Monitor.exists_internal hq (t := t)
      (by rintro ⟨op, hop⟩; cases hn.symm.trans hop) (by rw [hn]; simp)
    · exact hq'
    · cases hn.symm.trans hr
  obtain ⟨hraw, htensor, hresult⟩ := queues_reachable h
  cases k with
  | preprocess =>
      obtain ⟨q, hq⟩ := hstep hraw ht
      exact ⟨_, Step.raw hq⟩
  | inference =>
      obtain ⟨q, hq⟩ := hstep htensor ht
      exact ⟨_, Step.tensor hq⟩
  | post =>
      obtain ⟨q, hq⟩ := hstep hresult ht
      exact ⟨_, Step.result hq⟩

omit [Field K] [LinearOrder K] [DecidableEq σ] in
/-- A thread that has still to send the signal of its push is in its call. -/
theorem Synced.calling_of_notifies {s : State σ K} (h : Synced s) {k : Stage} {t : Thread σ}
    (ht : s.NotifiesInput k t) :
  s.core.calling t ≠ none
  := by
  intro hnone
  have hraw := h.raw t
  have htensor := h.tensor t
  have hresult := h.result t
  rw [Core.rawCall, hnone] at hraw
  rw [Core.tensorCall, hnone] at htensor
  rw [Core.resultCall, hnone] at hresult
  have hraw : s.raw_queue.phase t = .idle := hraw
  have htensor : s.tensor_queue.phase t = .idle := htensor
  have hresult : s.result_queue.phase t = .idle := hresult
  cases k with
  | preprocess => cases hraw.symm.trans ht
  | inference => cases htensor.symm.trans ht
  | post => cases hresult.symm.trans ht

omit [Field K] [LinearOrder K] [DecidableEq σ] in
/-- A thread that has still to send the signal of its push is active. -/
theorem Synced.active_of_notifies {s : State σ K} (h : Synced s) {k : Stage} {t : Thread σ}
    (ht : s.NotifiesInput k t) :
  s.Active t
  := by
  have hcalling := h.calling_of_notifies ht
  refine ⟨h.not_waits_of_notifies ht, ?_, ?_⟩
  · rintro rfl hidle
    apply hcalling
    rw [Core.calling, hidle]
    rfl
  · rintro i rfl hnone
    apply hcalling
    rw [Core.calling, hnone]
    rfl

/-- A helpful thread is active, and can take a step. -/
theorem Awaiting.enabled {k : ℕ} {s : State σ K} (h : Awaiting P k s) {t : Thread σ}
    (ht : s.Helpful t) :
  s.Active t ∧ (system σ P).Enabled t s
  := by
  obtain ⟨hw, rfl⟩ | ⟨-, hn⟩ := ht
  · constructor
    · refine ⟨hw, ?_, ?_⟩
      · intro ht
        cases ht
      · intro i ht
        cases ht
    · apply enabled_of_awake h.reachable hw (alive_of_up h.reachable h.up _)
  · exact ⟨(synced_of_reachable h.reachable).active_of_notifies hn,
      enabled_of_notifies h.reachable hn⟩

end Pipeline
