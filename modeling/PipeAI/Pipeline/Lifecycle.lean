import PipeAI.Pipeline.Steps

/-!
# The workers of the pipeline

The thread of a worker is in its loop just when the program counter of its stage is inside of
the loop (`attached_of_reachable`).  For each worker, the pipeline is a system in which one
thread calls `start` and `stop` on it (`workerProjection`), and one thread never exchanges the
flag while it is at work on the other side.  Hence no worker of the pipeline terminates the
process, and its flag is set just when it has a thread, but while `start` or `stop` is at work
with it (`managed_of_reachable`).

The queues are closed in order, and all are closed once `stop` turns to the workers
(`closing_of_reachable`).
-/

namespace Pipeline

variable {σ K : Type}

/-! ### The loops -/

/-- The thread of the stage is inside of its loop. -/
def Core.InLoop (c : Core σ K) : Stage → Prop
  | .preprocess => c.preprocess ≠ .outside
  | .inference => c.inference ≠ .outside
  | .post => c.post ≠ .outside

/-- The threads of the workers are in their loops just when their program counters say so. -/
def Attached (c : Core σ K) : Prop :=
  ∀ k, (c.worker k).thread = some .loop ↔ c.InLoop k

@[simp]
theorem Core.setWorker_worker_self (c : Core σ K) (k : Stage) (w : Worker) :
  (c.setWorker k w).worker k = w
  := Function.update_self ..

theorem Core.setWorker_self (c : Core σ K) (k : Stage) :
  c.setWorker k (c.worker k) = c
  := by
  rw [Core.setWorker, Function.update_eq_self]

theorem Core.setWorker_worker_of_ne (c : Core σ K) {k k' : Stage} (w : Worker) (h : k' ≠ k) :
  (c.setWorker k w).worker k' = c.worker k'
  := Function.update_of_ne h ..

variable [Field K] [LinearOrder K] [DecidableEq σ] {P : Params K}

/-- The worker of a stage belongs to its thread and to the one that calls `start` and `stop`. -/
theorem CoreStep.worker {c c' : Core σ K} {t : Thread σ} {a : Action K} {k : Stage}
    (h : CoreStep P c t a c') (hk : t ≠ .stage k) (hcontrol : t ≠ .control) :
  c'.worker k = c.worker k
  := by
  cases t with
  | stage k' =>
      have hne : k ≠ k' := by
        rintro rfl
        apply hk rfl
      cases k' <;> cases h <;> first
        | rfl
        | exact Core.setWorker_worker_of_ne _ _ hne
  | control => apply absurd rfl hcontrol
  | submitter i => cases h <;> rfl

/-- The program counter of `start` and `stop` and their returns belong to the thread that calls
them. -/
theorem CoreStep.control {c c' : Core σ K} {t : Thread σ} {a : Action K}
    (h : CoreStep P c t a c') (ht : t ≠ .control) :
  c'.control = c.control ∧ c'.lifecycle = c.lifecycle
  := by
  rcases t with (_ | _ | _) | _ | i
  rotate_left 3
  · apply absurd rfl ht
  all_goals cases h <;> exact ⟨rfl, rfl⟩

/-- The place of a stage in its loop belongs to its thread. -/
theorem CoreStep.inLoop {c c' : Core σ K} {t : Thread σ} {a : Action K} {k : Stage}
    (h : CoreStep P c t a c') (hk : t ≠ .stage k) :
  c'.InLoop k ↔ c.InLoop k
  := by
  cases k with
  | preprocess => rw [Core.InLoop, Core.InLoop, (h.forming hk).1]
  | inference => rw [Core.InLoop, Core.InLoop, (h.inferring hk).1]
  | post => rw [Core.InLoop, Core.InLoop, (h.posting hk).1]

/-- What a step of the thread of a stage does to its worker: nothing, or it enters the loop, ends,
or leaves the loop. -/
inductive Core.LoopStep (c : Core σ K) (k : Stage) (c' : Core σ K) : Prop where
  | inside (hw : c'.worker = c.worker) (hc : c.InLoop k) (hc' : c'.InLoop k)
  | enter (ht : (c.worker k).thread = some .test) (hr : (c.worker k).running = true)
      (hw : c'.worker = Function.update c.worker k (c.worker k).test) (hc' : c'.InLoop k)
  | exit (ht : (c.worker k).thread = some .test) (hr : (c.worker k).running = false)
      (hw : c'.worker = Function.update c.worker k (c.worker k).test)
      (hc' : c'.InLoop k ↔ c.InLoop k)
  | leave (hw : c'.worker = Function.update c.worker k (c.worker k).loopReturns)
      (hc : c.InLoop k) (hc' : ¬ c'.InLoop k)

/-- A step of the thread of a stage is one of those on its worker. -/
theorem CoreStep.loopStep {c c' : Core σ K} {a : Action K} {k : Stage}
    (h : CoreStep P c (.stage k) a c') :
  c.LoopStep k c'
  := by
  cases k with
  | preprocess =>
      cases h with
      | enter hp ht hr => exact .enter ht hr rfl (by simp [Core.InLoop])
      | exit ht hr => exact .exit ht hr rfl Iff.rfl
      | popEnds hp => exact .leave rfl (by simp [Core.InLoop, hp]) (by simp [Core.InLoop])
      | run hp hw hrun =>
          refine Core.LoopStep.inside rfl (by simp [Core.InLoop, hp]) ?_
          simp only [Core.InLoop]
          split <;> simp
      | _ hp => exact .inside rfl (by simp [Core.InLoop, hp]) (by simp [Core.InLoop])
  | inference =>
      cases h with
      | enter hp ht hr => exact .enter ht hr rfl (by simp [Core.InLoop])
      | exit ht hr => exact .exit ht hr rfl Iff.rfl
      | popEnds hp => exact .leave rfl (by simp [Core.InLoop, hp]) (by simp [Core.InLoop])
      | _ hp => exact .inside rfl (by simp [Core.InLoop, hp]) (by simp [Core.InLoop])
  | post =>
      cases h with
      | enter hp ht hr => exact .enter ht hr rfl (by simp [Core.InLoop])
      | exit ht hr => exact .exit ht hr rfl Iff.rfl
      | popEnds hp => exact .leave rfl (by simp [Core.InLoop, hp]) (by simp [Core.InLoop])
      | _ hp => exact .inside rfl (by simp [Core.InLoop, hp]) (by simp [Core.InLoop])

/-- The flags belong to the thread that calls `start` and `stop`. -/
theorem CoreStep.running {c c' : Core σ K} {t : Thread σ} {a : Action K} (h : CoreStep P c t a c')
    (ht : t ≠ .control) (k : Stage) :
  (c'.worker k).running = (c.worker k).running
  := by
  by_cases hk : t = .stage k
  · subst hk
    cases h.loopStep with
    | inside hw hin hin' => rw [hw]
    | enter _ hr hw hin' =>
        rw [hw, Function.update_self]
        rfl
    | exit _ hr hw hin' =>
        rw [hw, Function.update_self]
        rfl
    | leave hw hin hin' =>
        rw [hw, Function.update_self]
        rfl
  · rw [h.worker hk ht]

/-- What a step means for the thread that calls `start` and `stop`: it is one of its own, or it
leaves where this thread is, the returns and the flags. -/
theorem Step.control_cases {s s' : State σ K} {t : Thread σ} (h : Step P s t s') :
  (t = .control ∧ ∃ a, ControlStep s.core a s'.core)
    ∨ s'.core.control = s.core.control ∧ s'.core.lifecycle = s.core.lifecycle
      ∧ ∀ k, (s'.core.worker k).running = (s.core.worker k).running
  := by
  obtain ⟨a, hc, -⟩ | ⟨hcore, -⟩ := h.cases
  · by_cases ht : t = .control
    · left
      subst ht
      exact ⟨rfl, a, hc⟩
    · right
      exact ⟨(hc.control ht).1, (hc.control ht).2, hc.running ht⟩
  · right
    rw [hcore]
    exact ⟨rfl, rfl, fun _ => rfl⟩

omit [Field K] [LinearOrder K] [DecidableEq σ] in
/-- `start` and `stop` change the thread of a worker only where there is none, or where it has
ended. -/
theorem ControlStep.thread {c c' : Core σ K} {a : Action K} (h : ControlStep c a c') (k : Stage) :
  (c'.worker k).thread = (c.worker k).thread
    ∨ ((c.worker k).thread = none ∧ (c'.worker k).thread = some .test)
    ∨ ((c.worker k).thread = some .exited ∧ (c'.worker k).thread = none)
  := by
  have hset : ∀ k' w, w.thread = (c.worker k').thread →
      ((c.setWorker k' w).worker k).thread = (c.worker k).thread := by
    intro k' w hw
    by_cases hk : k = k'
    · subst hk
      rw [Core.setWorker_worker_self, hw]
    · rw [Core.setWorker_worker_of_ne _ _ hk]
  cases h with
  | startLoses hp hx => exact Or.inl (hset _ _ rfl)
  | startWins hp hx => exact Or.inl (hset _ _ rfl)
  | stopLoses hp hx => exact Or.inl (hset _ _ rfl)
  | stopWins hp hx => exact Or.inl (hset _ _ rfl)
  | @assign k' ok w hp hw =>
      rw [Worker.assign] at hw
      split at hw
      · cases hw
      · rename_i hj
        cases hw
        by_cases hk : k = k'
        · subst hk
          right
          left
          constructor
          · simpa [Worker.joinable] using hj
          · exact congrArg Worker.thread (Core.setWorker_worker_self ..)
        · left
          exact congrArg Worker.thread (Core.setWorker_worker_of_ne _ _ hk)
  | @join k' hp hx =>
      by_cases hk : k = k'
      · subst hk
        right
        right
        use hx
        exact congrArg Worker.thread (Core.setWorker_worker_self ..)
      · left
        exact congrArg Worker.thread (Core.setWorker_worker_of_ne _ _ hk)
  | _ => exact Or.inl rfl

/-- In every reachable state the threads of the workers are in their loops just when their
program counters say so. -/
theorem attached_of_reachable {s : State σ K} (h : (system σ P).Reachable s) :
  Attached s.core
  := by
  apply h.invariant
  · rintro s rfl (_ | _ | _) <;> simp [State.initial, Core.initial, Core.InLoop, Worker.idle]
  · intro s t s' _ hatt hstep k
    obtain ⟨a, hc, -⟩ | ⟨hcore, -⟩ := hstep.cases
    · by_cases hk : t = .stage k
      · subst hk
        cases hc.loopStep with
        | inside hw hin hin' =>
            rw [hw, hatt k]
            exact iff_of_true hin hin'
        | enter ht hr hw hin' =>
            rw [hw, Function.update_self]
            exact iff_of_true (by simp [Worker.test, hr]) hin'
        | exit ht hr hw hin' =>
            rw [hw, Function.update_self, hin', ← hatt k, ht]
            simp [Worker.test, hr]
        | leave hw hin hin' =>
            rw [hw, Function.update_self]
            exact iff_of_false (by simp [Worker.loopReturns]) hin'
      · rw [hc.inLoop hk, ← hatt k]
        by_cases hcontrol : t = .control
        · subst hcontrol
          obtain hsame | ⟨hnone, htest⟩ | ⟨hexited, hnone⟩ := ControlStep.thread hc k
          · rw [hsame]
          · simp [hnone, htest]
          · simp [hexited, hnone]
        · rw [hc.worker hk hcontrol]
    · rw [hcore]
      apply hatt k

/-! ### The calls on a worker -/

/-- Where the thread that calls `start` and `stop` of the pipeline is in its call on the worker
of a stage. -/
def ControlPc.callPc : ControlPc → Stage → Worker.CallPc
  | .starting k' _, k => if k' = k then .starting else .idle
  | .assigning k' _, k => if k' = k then .assigning else .idle
  | .stopping k', k => if k' = k then .stopping else .idle
  | .testing k', k => if k' = k then .testing else .idle
  | .joining k', k => if k' = k then .joining else .idle
  | _, _ => .idle

/-- A worker with one calling thread. -/
def calledBy (w : Worker) (p : Worker.CallPc) : Worker.State Unit :=
  ⟨w, fun _ => p, .alive⟩

theorem calledBy_move (w w' : Worker) (p p' : Worker.CallPc) :
  (calledBy w p).move () p' w' = calledBy w' p'
  := by
  apply Worker.State.ext
  · rfl
  · funext u
    apply Worker.State.move_pc_self
  · rfl

/-- The worker of a stage with the thread that calls `start` and `stop`. -/
def Core.workerState (c : Core σ K) (k : Stage) : Worker.State Unit :=
  calledBy (c.worker k) (c.control.callPc k)

/-- A thread that is in no call on a worker stays so, or invokes `start` or `stop`. -/
theorem calledBy_invoke (w : Worker) {p : Worker.CallPc}
    (hp : p = .idle ∨ p = .starting ∨ p = .stopping) :
  calledBy w p = calledBy w .idle ∨ Worker.CallStep (calledBy w .idle) (some ()) (calledBy w p)
  := by
  obtain rfl | rfl | rfl := hp
  · left
    rfl
  · right
    rw [← calledBy_move w w .idle]
    apply Worker.CallStep.invokeStart () rfl rfl
  · right
    rw [← calledBy_move w w .idle]
    apply Worker.CallStep.invokeStop () rfl rfl

/-- The call is at `p` on the worker of the stage `k'`, and has at most been invoked on another
one. -/
def ControlPc.CallsOn (q : ControlPc) (k' : Stage) (p : Worker.CallPc) : Prop :=
  q.callPc k' = p
    ∧ ∀ k, k' ≠ k → q.callPc k = .idle ∨ q.callPc k = .starting ∨ q.callPc k = .stopping

/-- A call on the worker of one stage. -/
theorem ControlPc.CallsOn.of_ite {q : ControlPc} {k' : Stage} {p : Worker.CallPc}
    (h : ∀ k, q.callPc k = if k' = k then p else .idle) :
  q.CallsOn k' p
  := by
  constructor
  · rw [h, if_pos rfl]
  · intro k hk
    left
    rw [h, if_neg hk]

omit [Field K] [LinearOrder K] [DecidableEq σ] in
/-- `start` that goes on after a worker is in no call on it. -/
theorem Core.callsOn_nextStart (c : Core σ K) (k' : Stage) (ok : Bool) :
  (c.nextStart k' ok).control.CallsOn k' .idle
  := by
  constructor
  · cases k' <;> rfl
  · intro k _
    cases k' <;> cases k <;> simp [Core.nextStart, Stage.next, ControlPc.callPc]

omit [Field K] [LinearOrder K] [DecidableEq σ] in
/-- `stop` that goes on after a worker is in no call on it. -/
theorem Core.callsOn_nextStop (c : Core σ K) (k' : Stage) :
  (c.nextStop k').control.CallsOn k' .idle
  := by
  constructor
  · cases k' <;> rfl
  · intro k _
    cases k' <;> cases k <;> simp [Core.nextStop, Stage.next, ControlPc.callPc]

omit [Field K] [LinearOrder K] [DecidableEq σ] in
/-- A step of the call on the worker of the stage `k'` is one for each worker `k`, where no call
on another worker is in progress. -/
theorem workerState_cases {c c' : Core σ K} {k' : Stage} {p q : Worker.CallPc} {w : Worker}
    (hw : c'.worker = Function.update c.worker k' w)
    (hp : ∀ k, c.control.callPc k = if k' = k then p else .idle)
    (hq : c'.control.CallsOn k' q)
    (hstep : Worker.CallStep (calledBy (c.worker k') p) (some ())
      ((calledBy (c.worker k') p).move () q w)) (k : Stage) :
  c'.workerState k = c.workerState k
    ∨ Worker.CallStep (c.workerState k) (some ()) (c'.workerState k)
  := by
  rw [Core.workerState, Core.workerState, hw, hp]
  by_cases hk : k' = k
  · subst hk
    right
    rw [if_pos rfl, Function.update_self, hq.1, ← calledBy_move (c.worker k') w p]
    apply hstep
  · rw [if_neg hk, Function.update_of_ne (Ne.symm hk)]
    apply calledBy_invoke _ (hq.2 k hk)

omit [Field K] [LinearOrder K] [DecidableEq σ] in
/-- What `start` and `stop` of the pipeline do is, for each worker, nothing, or a step of `start`
or `stop` on it. -/
theorem ControlStep.call {c c' : Core σ K} {a : Action K} (h : ControlStep c a c') (k : Stage) :
  c'.workerState k = c.workerState k
    ∨ Worker.CallStep (c.workerState k) (some ()) (c'.workerState k)
  := by
  cases h with
  | invokeStart hp =>
      rw [Core.workerState, Core.workerState, hp]
      apply calledBy_invoke
      cases k <;> simp [ControlPc.callPc]
  | invokeStop hp =>
      rw [Core.workerState, Core.workerState, hp]
      left
      rfl
  | callClose hp =>
      rw [Core.workerState, Core.workerState, hp]
      left
      rfl
  | @closeReturns k' hp =>
      rw [Core.workerState, Core.workerState, hp]
      apply calledBy_invoke
      cases k' <;> cases k <;> simp [Core.nextClose, Stage.next, ControlPc.callPc]
  | @startLoses k' ok hp hx =>
      have hcall : ∀ k, c.control.callPc k = if k' = k then .starting else .idle := by
        rw [hp]
        intro k
        rfl
      exact workerState_cases rfl hcall (Core.callsOn_nextStart _ _ _) (.startLoses rfl hx) k
  | @startWins k' ok hp hx =>
      have hcall : ∀ k, c.control.callPc k = if k' = k then .starting else .idle := by
        rw [hp]
        intro k
        rfl
      exact workerState_cases rfl hcall (.of_ite (fun _ => rfl)) (.startWins rfl hx) k
  | @assign k' ok w hp hw =>
      have hcall : ∀ k, c.control.callPc k = if k' = k then .assigning else .idle := by
        rw [hp]
        intro k
        rfl
      exact workerState_cases rfl hcall (Core.callsOn_nextStart _ _ _) (.assign rfl hw) k
  | @stopLoses k' hp hx =>
      have hcall : ∀ k, c.control.callPc k = if k' = k then .stopping else .idle := by
        rw [hp]
        intro k
        rfl
      exact workerState_cases rfl hcall (Core.callsOn_nextStop _ _) (.stopLoses rfl hx) k
  | @stopWins k' hp hx =>
      have hcall : ∀ k, c.control.callPc k = if k' = k then .stopping else .idle := by
        rw [hp]
        intro k
        rfl
      exact workerState_cases rfl hcall (.of_ite (fun _ => rfl)) (.stopWins rfl hx) k
  | @notJoinable k' hp hj =>
      have hcall : ∀ k, c.control.callPc k = if k' = k then .testing else .idle := by
        rw [hp]
        intro k
        rfl
      have hw : (c.nextStop k').worker = Function.update c.worker k' (c.worker k') :=
        (Function.update_eq_self k' c.worker).symm
      exact workerState_cases hw hcall (Core.callsOn_nextStop _ _) (.notJoinable rfl hj) k
  | @joinable k' hp hj =>
      have hcall : ∀ k, c.control.callPc k = if k' = k then .testing else .idle := by
        rw [hp]
        intro k
        rfl
      have hw : Core.worker { c with control := .joining k' }
          = Function.update c.worker k' (c.worker k') :=
        (Function.update_eq_self k' c.worker).symm
      exact workerState_cases hw hcall (.of_ite (fun _ => rfl)) (.joinable rfl hj) k
  | @join k' hp hx =>
      have hcall : ∀ k, c.control.callPc k = if k' = k then .joining else .idle := by
        rw [hp]
        intro k
        rfl
      exact workerState_cases rfl hcall (Core.callsOn_nextStop _ _) (.join rfl hx) k

/-- The worker of a stage is a worker on which one thread calls `start` and `stop`. -/
def workerProjection (P : Params K) (k : Stage) :
    TransitionSystem.Projection (system σ P)
      ((Worker.system Unit).restrict Worker.Undisturbed) where
  map s := s.core.workerState k
  init := by
    rintro s rfl
    rfl
  step := by
    intro s t s' hs hstep
    obtain ⟨a, hc, -⟩ | ⟨hcore, -⟩ := hstep.cases
    · by_cases hk : t = .stage k
      · subst hk
        have hcontrol : s'.core.control = s.core.control := (hc.control (by simp)).1
        rw [Core.workerState, Core.workerState, hcontrol]
        cases hc.loopStep with
        | inside hw hin hin' =>
            left
            rw [hw]
        | enter ht hr hw hin' =>
            right
            use none
            rw [hw, Function.update_self]
            exact ⟨⟨nofun, Worker.CallStep.threadTests ht⟩, nofun⟩
        | exit ht hr hw hin' =>
            right
            use none
            rw [hw, Function.update_self]
            exact ⟨⟨nofun, Worker.CallStep.threadTests ht⟩, nofun⟩
        | leave hw hin hin' =>
            right
            use none
            rw [hw, Function.update_self]
            exact ⟨⟨nofun, Worker.CallStep.loopReturns ((attached_of_reachable hs k).mpr hin)⟩,
              nofun⟩
      · by_cases hcontrol : t = .control
        · subst hcontrol
          obtain hsame | hcall := ControlStep.call hc k
          · left
            apply hsame
          · right
            use some ()
            refine ⟨⟨nofun, hcall⟩, ?_⟩
            intro u _
            constructor
            · intro hu v
              constructor
              · intro hv
                cases hu.symm.trans hv
              · intro hv
                cases hu.symm.trans hv
            · intro hu v hv
              cases hu.symm.trans hv
        · left
          rw [Core.workerState, Core.workerState, hc.worker hk hcontrol, (hc.control hcontrol).1]
    · left
      rw [hcore]

/-- While no call of the thread of `start` and `stop` has taken the flag of a worker, it is set
just when the worker has a thread; such a call finds the worker as it expects it. -/
theorem managed_of_reachable {s : State σ K} (h : (system σ P).Reachable s) (k : Stage) :
  (s.core.worker k).Agrees (s.core.control.callPc k)
    ∧ (¬ (s.core.control.callPc k).Holds →
      (s.core.worker k).running = (s.core.worker k).thread.isSome)
  := by
  have hmode := (Worker.inv_of_undisturbed ((workerProjection P k).reachable h)).mode
  cases hmode with
  | free hfree hw =>
      constructor
      · have hnot : ¬ (s.core.control.callPc k).Holds := hfree ()
        cases hpc : s.core.control.callPc k with
        | assigning =>
            rw [hpc] at hnot
            apply absurd trivial hnot
        | testing =>
            rw [hpc] at hnot
            apply absurd trivial hnot
        | joining =>
            rw [hpc] at hnot
            apply absurd trivial hnot
        | _ => trivial
      · intro _
        apply hw
  | held u hu hother hw =>
      constructor
      · apply hw
      · intro hnot
        apply absurd hu hnot

/-! ### The closing of the queues -/

omit [Field K] [LinearOrder K] [DecidableEq σ] in
/-- The queue that a stage pops from is closed. -/
def State.closed (s : State σ K) : Stage → Bool
  | .preprocess => s.raw_queue.shared.closed
  | .inference => s.tensor_queue.shared.closed
  | .post => s.result_queue.shared.closed

/-- The place of a stage. -/
def Stage.index : Stage → ℕ
  | .preprocess => 0
  | .inference => 1
  | .post => 2

/-- `stop` is past its call of `close` for the queue of the stage. -/
def ControlPc.PastClose : ControlPc → Stage → Prop
  | .close k', k => k.index < k'.index
  | .closing k', k => k.index < k'.index
  | .stopping _, _ => True
  | .testing _, _ => True
  | .joining _, _ => True
  | _, _ => False

omit [Field K] [LinearOrder K] [DecidableEq σ] in
/-- The queues are closed in order, by `stop`. -/
structure Closing (s : State σ K) : Prop where
  past : ∀ k, s.core.control.PastClose k → s.closed k = true
  order : ∀ k k', k.index < k'.index → s.closed k' = true → s.closed k = true
  returned : .stopped ∈ s.core.lifecycle → ∀ k, s.closed k = true

/-- A queue stays closed. -/
theorem Step.closed {s s' : State σ K} {t : Thread σ} (h : Step P s t s') {k : Stage}
    (hk : s.closed k = true) :
  s'.closed k = true
  := by
  obtain ⟨a, -, hraw, htensor, hresult⟩ | ⟨-, ⟨hq, htensor, hresult⟩ | ⟨hq, hraw, hresult⟩
    | ⟨hq, hraw, htensor⟩⟩ := h.cases
  · cases k with
    | preprocess => rwa [State.closed, hraw.same.1]
    | inference => rwa [State.closed, htensor.same.1]
    | post => rwa [State.closed, hresult.same.1]
  · cases k with
    | preprocess => apply (BlockingQueue.closed_internal hk hq).1
    | inference => rwa [State.closed, htensor]
    | post => rwa [State.closed, hresult]
  · cases k with
    | preprocess => rwa [State.closed, hraw]
    | inference => apply (BlockingQueue.closed_internal hk hq).1
    | post => rwa [State.closed, hresult]
  · cases k with
    | preprocess => rwa [State.closed, hraw]
    | inference => rwa [State.closed, htensor]
    | post => apply (BlockingQueue.closed_internal hk hq).1

omit [Field K] [LinearOrder K] [DecidableEq σ] in
/-- A thread before the section of a call of `close` is in `stop`. -/
theorem Synced.closing {s : State σ K} (h : Synced s) {t : Thread σ} :
  ((s.raw_queue.phase t).view = .before .close → s.core.control = .closing .preprocess)
    ∧ ((s.tensor_queue.phase t).view = .before .close → s.core.control = .closing .inference)
    ∧ ((s.result_queue.phase t).view = .before .close → s.core.control = .closing .post)
  := by
  refine ⟨?_, ?_, ?_⟩
  · intro hv
    obtain ⟨-, -, hop⟩ | ⟨-, hp, -⟩ | ⟨i, sample, -, -, hop⟩ :=
      Core.rawCall_cases ((h.raw t).of_before hv)
    · cases hop
    · apply hp
    · cases hop
  · intro hv
    obtain ⟨input, -, -, hop⟩ | ⟨-, -, hop⟩ | ⟨-, hp, -⟩ :=
      Core.tensorCall_cases ((h.tensor t).of_before hv)
    · cases hop
    · cases hop
    · apply hp
  · intro hv
    obtain ⟨result, -, -, hop⟩ | ⟨-, -, hop⟩ | ⟨-, hp, -⟩ :=
      Core.resultCall_cases ((h.result t).of_before hv)
    · cases hop
    · cases hop
    · apply hp

/-- A queue is closed in a call of `close` in `stop`. -/
theorem Step.closes {s s' : State σ K} {t : Thread σ} (h : Step P s t s') (hs : Synced s)
    {k : Stage} (hk : s.closed k = false) (hk' : s'.closed k = true) :
  s.core.control = .closing k
  := by
  have hsame : s'.closed k ≠ s.closed k := by
    rw [hk, hk']
    simp
  obtain ⟨a, -, hraw, htensor, hresult⟩ | ⟨-, ⟨hq, htensor, hresult⟩ | ⟨hq, hraw, hresult⟩
    | ⟨hq, hraw, htensor⟩⟩ := h.cases
  · cases k with
    | preprocess => exact absurd (congrArg BlockingQueue.closed hraw.same.1) hsame
    | inference => exact absurd (congrArg BlockingQueue.closed htensor.same.1) hsame
    | post => exact absurd (congrArg BlockingQueue.closed hresult.same.1) hsame
  · cases k with
    | preprocess => exact hs.closing.1 (BlockingQueue.closes_internal hk hk' hq).1
    | inference => exact absurd (by rw [State.closed, State.closed, htensor]) hsame
    | post => exact absurd (by rw [State.closed, State.closed, hresult]) hsame
  · cases k with
    | preprocess => exact absurd (by rw [State.closed, State.closed, hraw]) hsame
    | inference => exact hs.closing.2.1 (BlockingQueue.closes_internal hk hk' hq).1
    | post => exact absurd (by rw [State.closed, State.closed, hresult]) hsame
  · cases k with
    | preprocess => exact absurd (by rw [State.closed, State.closed, hraw]) hsame
    | inference => exact absurd (by rw [State.closed, State.closed, htensor]) hsame
    | post => exact hs.closing.2.2 (BlockingQueue.closes_internal hk hk' hq).1

omit [Field K] [LinearOrder K] [DecidableEq σ] in
/-- `stop` gets past its call of `close` for the queue of a stage when the call returns. -/
theorem ControlStep.pastClose {c c' : Core σ K} {a : Action K} (h : ControlStep c a c') {k : Stage}
    (hk : c'.control.PastClose k) :
  c.control.PastClose k ∨ a = .ret k.closeReturn
  := by
  cases h with
  | invokeStart hp => cases hk
  | @startLoses k' ok hp hx => cases k' <;> cases hk
  | startWins hp hx => cases hk
  | @assign k' ok w hp hw => cases k' <;> cases hk
  | invokeStop hp => cases k <;> cases hk
  | callClose hp =>
      left
      rw [hp]
      apply hk
  | @closeReturns k' hp =>
      rw [hp]
      cases k' <;> cases k <;>
        simp [Core.nextClose, Stage.next, ControlPc.PastClose, Stage.index] at hk ⊢
  | _ hp =>
      left
      rw [hp]
      trivial

omit [Field K] [LinearOrder K] [DecidableEq σ] in
/-- `stop` has closed the queues when it returns. -/
theorem ControlStep.returns {c c' : Core σ K} {a : Action K} (h : ControlStep c a c')
    (hreturned : .stopped ∈ c'.lifecycle) :
  .stopped ∈ c.lifecycle ∨ ∀ k, c.control.PastClose k
  := by
  cases h with
  | @startLoses k' ok hp hx =>
      left
      cases k' <;> simpa [Core.nextStart, Stage.next, Core.setWorker] using hreturned
  | @assign k' ok w hp hw =>
      left
      cases k' <;> simpa [Core.nextStart, Stage.next, Core.setWorker] using hreturned
  | stopLoses hp hx =>
      right
      rw [hp]
      intro k
      trivial
  | notJoinable hp hj =>
      right
      rw [hp]
      intro k
      trivial
  | join hp hx =>
      right
      rw [hp]
      intro k
      trivial
  | _ => exact Or.inl hreturned

/-- In every reachable state the queues have been closed in order, by `stop`. -/
theorem closing_of_reachable {s : State σ K} (h : (system σ P).Reachable s) :
  Closing s
  := by
  apply h.invariant
  · rintro s rfl
    constructor
    · intro k hk
      cases hk
    · intro k k' _ hk'
      cases k' <;> cases hk'
    · intro hreturned
      cases hreturned
  · intro s t s' hs hclosing hstep
    constructor
    · intro k hk
      obtain ⟨a, hc, hraw, htensor, hresult⟩ | ⟨hcore, -⟩ := hstep.cases
      · by_cases ht : t = .control
        · subst ht
          obtain hpast | rfl := ControlStep.pastClose hc hk
          · apply hstep.closed (hclosing.past k hpast)
          · apply hstep.closed
            cases k with
            | preprocess =>
                apply BlockingQueue.closed_of_after ((rawProjection σ P).reachable hs) .control
                rw [show (rawProjection σ P).map s = s.raw_queue from rfl, hraw.1]
                rfl
            | inference =>
                apply BlockingQueue.closed_of_after ((tensorProjection σ P).reachable hs) .control
                rw [show (tensorProjection σ P).map s = s.tensor_queue from rfl, htensor.1]
                rfl
            | post =>
                apply BlockingQueue.closed_of_after ((resultProjection σ P).reachable hs) .control
                rw [show (resultProjection σ P).map s = s.result_queue from rfl, hresult.1]
                rfl
        · rw [(hc.control ht).1] at hk
          apply hstep.closed (hclosing.past k hk)
      · rw [hcore] at hk
        apply hstep.closed (hclosing.past k hk)
    · intro k k' hlt hk'
      cases hk : s.closed k' with
      | true => apply hstep.closed (hclosing.order k k' hlt hk)
      | false =>
          apply hstep.closed
          apply hclosing.past k
          rw [hstep.closes (synced_of_reachable hs) hk hk']
          apply hlt
    · intro hreturned k
      apply hstep.closed
      obtain ⟨-, a, hc⟩ | ⟨-, hlife, -⟩ := hstep.control_cases
      · obtain hbefore | hpast := hc.returns hreturned
        · apply hclosing.returned hbefore
        · apply hclosing.past k (hpast k)
      · rw [hlife] at hreturned
        apply hclosing.returned hreturned

/-! ### The flags -/

/-- `start` has taken the flag of the worker of the stage, and so far those before it. -/
def ControlPc.PastStart : ControlPc → Stage → Prop
  | .starting k' true, k => k.index < k'.index
  | .assigning k' true, k => k.index ≤ k'.index
  | _, _ => False

/-- `stop` is past its exchange of the flag of the worker of the stage. -/
def ControlPc.PastStop : ControlPc → Stage → Prop
  | .stopping k', k => k.index < k'.index
  | .testing k', k => k.index ≤ k'.index
  | .joining k', k => k.index ≤ k'.index
  | _, _ => False

omit [Field K] [LinearOrder K] [DecidableEq σ] in
/-- `stop` has returned for the first time, after a successful `start`, and neither has been
called since. -/
def Core.Stopped (c : Core σ K) : Prop :=
  c.control = .idle ∧ ∃ before, c.lifecycle = before ++ [.stopped] ∧ .stopped ∉ before
    ∧ .started true ∈ before

omit [Field K] [LinearOrder K] [DecidableEq σ] in
/-- The flags are set from the first successful `start` to the first `stop`. -/
structure Core.Flagged (c : Core σ K) : Prop where
  starting : ∀ k, c.control.PastStart k → (c.worker k).running = true
  going : .started true ∈ c.lifecycle → .stopped ∉ c.lifecycle →
    ∀ k, ¬ c.control.PastStop k → (c.worker k).running = true
  stopping : ∀ k, c.control.PastStop k → (c.worker k).running = false
  stopped : c.Stopped → ∀ k, (c.worker k).running = false

theorem Stage.index_injective {k k' : Stage} (h : k.index = k'.index) :
  k = k'
  := by
  cases k <;> cases k' <;> first | rfl | cases h

theorem Stage.index_lt_of_ne {k k' : Stage} (hle : k.index ≤ k'.index) (hne : k ≠ k') :
  k.index < k'.index
  := by
  apply lt_of_le_of_ne hle
  intro heq
  apply hne (Stage.index_injective heq)

theorem Stage.index_le_post (k : Stage) :
  k.index ≤ Stage.post.index
  := by
  cases k <;> decide

omit [Field K] [LinearOrder K] [DecidableEq σ] in
/-- `start` goes on after a worker. -/
theorem Core.Flagged.nextStart {c : Core σ K} {k' : Stage} {ok : Bool}
    (hstart : ok = true → ∀ k, k.index ≤ k'.index → (c.worker k).running = true)
    (hgoing : .started true ∈ c.lifecycle → .stopped ∉ c.lifecycle →
      ∀ k, (c.worker k).running = true) :
  (c.nextStart k' ok).Flagged
  := by
  cases hnext : k'.next with
  | some k'' =>
      have hlife : (c.nextStart k' ok).lifecycle = c.lifecycle := by rw [Core.nextStart, hnext]
      have hcontrol : (c.nextStart k' ok).control = .starting k'' ok := by
        rw [Core.nextStart, hnext]
      have hindex : k''.index = k'.index + 1 := by cases k' <;> cases hnext <;> rfl
      constructor
      · intro k hk
        rw [hcontrol] at hk
        cases ok with
        | false => cases hk
        | true =>
            have hlt : k.index < k''.index := hk
            apply hstart rfl k
            omega
      · intro hs hn k _
        rw [hlife] at hs hn
        apply hgoing hs hn k
      · intro k hk
        rw [hcontrol] at hk
        cases hk
      · rintro ⟨hidle, -⟩
        rw [hcontrol] at hidle
        cases hidle
  | none =>
      have hlife : (c.nextStart k' ok).lifecycle = c.lifecycle ++ [.started ok] := by
        rw [Core.nextStart, hnext]
      have hcontrol : (c.nextStart k' ok).control = .idle := by rw [Core.nextStart, hnext]
      obtain rfl : k' = .post := by cases k' <;> first | rfl | cases hnext
      constructor
      · intro k hk
        rw [hcontrol] at hk
        cases hk
      · intro hs hn k _
        rw [hlife] at hs hn
        cases ok with
        | true => apply hstart rfl k k.index_le_post
        | false =>
            rw [List.mem_append] at hs hn
            push Not at hn
            obtain hs | hs := hs
            · apply hgoing hs hn.1
            · cases List.mem_singleton.mp hs
      · intro k hk
        rw [hcontrol] at hk
        cases hk
      · rintro ⟨-, before, hbefore, -⟩
        rw [hlife] at hbefore
        have hlast := List.append_inj_right' hbefore rfl
        cases hlast

omit [Field K] [LinearOrder K] [DecidableEq σ] in
/-- `stop` goes on after a worker. -/
theorem Core.Flagged.nextStop {c : Core σ K} {k' : Stage}
    (hgoing : .started true ∈ c.lifecycle → .stopped ∉ c.lifecycle →
      ∀ k, k'.index < k.index → (c.worker k).running = true)
    (hstop : ∀ k, k.index ≤ k'.index → (c.worker k).running = false) :
  (c.nextStop k').Flagged
  := by
  cases hnext : k'.next with
  | some k'' =>
      have hlife : (c.nextStop k').lifecycle = c.lifecycle := by rw [Core.nextStop, hnext]
      have hcontrol : (c.nextStop k').control = .stopping k'' := by rw [Core.nextStop, hnext]
      have hindex : k''.index = k'.index + 1 := by cases k' <;> cases hnext <;> rfl
      constructor
      · intro k hk
        rw [hcontrol] at hk
        cases hk
      · intro hs hn k hk
        rw [hlife] at hs hn
        rw [hcontrol] at hk
        have hnot : ¬ k.index < k''.index := hk
        apply hgoing hs hn k
        omega
      · intro k hk
        rw [hcontrol] at hk
        have hlt : k.index < k''.index := hk
        apply hstop k
        omega
      · rintro ⟨hidle, -⟩
        rw [hcontrol] at hidle
        cases hidle
  | none =>
      have hlife : (c.nextStop k').lifecycle = c.lifecycle ++ [.stopped] := by
        rw [Core.nextStop, hnext]
      have hcontrol : (c.nextStop k').control = .idle := by rw [Core.nextStop, hnext]
      obtain rfl : k' = .post := by cases k' <;> first | rfl | cases hnext
      constructor
      · intro k hk
        rw [hcontrol] at hk
        cases hk
      · intro hs hn
        rw [hlife] at hn
        simp at hn
      · intro k hk
        rw [hcontrol] at hk
        cases hk
      · rintro - k
        apply hstop k k.index_le_post

omit [Field K] [LinearOrder K] [DecidableEq σ] in
/-- The flag of another worker is as before, and that of the worker of the stage as it is set. -/
theorem Core.running_setWorker (c : Core σ K) (k k' : Stage) (w : Worker) :
  ((c.setWorker k' w).worker k).running = if k = k' then w.running else (c.worker k).running
  := by
  split
  · rename_i hk
    subst hk
    rw [Core.setWorker_worker_self]
  · rename_i hk
    rw [Core.setWorker_worker_of_ne _ _ hk]

omit [Field K] [LinearOrder K] [DecidableEq σ] in
/-- No flag changes when that of the worker of a stage does not. -/
theorem Core.running_setWorker_of_eq {c : Core σ K} {k' : Stage} {w : Worker}
    (hw : w.running = (c.worker k').running) (k : Stage) :
  ((c.setWorker k' w).worker k).running = (c.worker k).running
  := by
  rw [Core.running_setWorker]
  split
  · rename_i hk
    rw [hk, hw]
  · rfl

omit [Field K] [LinearOrder K] [DecidableEq σ] in
/-- If the flags before a stage have a value, and its worker gets this value, then the flags up to
the stage have it. -/
theorem Core.running_upTo {c : Core σ K} {k' : Stage} {w : Worker} {b : Bool} (hw : w.running = b)
    (hbefore : ∀ k : Stage, k.index < k'.index → (c.worker k).running = b) (k : Stage)
    (hk : k.index ≤ k'.index) :
  ((c.setWorker k' w).worker k).running = b
  := by
  rw [Core.running_setWorker]
  split
  · apply hw
  · rename_i hne
    apply hbefore k (Stage.index_lt_of_ne hk hne)

omit [Field K] [LinearOrder K] [DecidableEq σ] in
/-- The flags after a stage are as before. -/
theorem Core.running_after (c : Core σ K) (w : Worker) {k k' : Stage} (hk : k'.index < k.index) :
  ((c.setWorker k' w).worker k).running = (c.worker k).running
  := by
  rw [Core.running_setWorker, if_neg]
  rintro rfl
  apply Nat.lt_irrefl _ hk

omit [Field K] [LinearOrder K] [DecidableEq σ] in
/-- Inside of `start` and `stop`, before their exchanges of flags, the flags are set after a
successful `start`. -/
theorem Core.Flagged.before {c : Core σ K} (hstart : ∀ k, ¬ c.control.PastStart k)
    (hstop : ∀ k, ¬ c.control.PastStop k) (hidle : c.control ≠ .idle)
    (hgoing : .started true ∈ c.lifecycle → .stopped ∉ c.lifecycle →
      ∀ k, (c.worker k).running = true) :
  c.Flagged
  := by
  constructor
  · intro k hk
    exact absurd hk (hstart k)
  · intro hs hn k _
    apply hgoing hs hn k
  · intro k hk
    exact absurd hk (hstop k)
  · rintro ⟨hcontrol, -⟩
    exact absurd hcontrol hidle

omit [Field K] [LinearOrder K] [DecidableEq σ] in
/-- `start` and `stop` keep the flags as their returns say. -/
theorem Core.Flagged.control {c c' : Core σ K} {a : Action K} (h : c.Flagged)
    (hc : ControlStep c a c') :
  c'.Flagged
  := by
  obtain ⟨hstart, hgoing, hstop, hstopped⟩ := h
  cases hc with
  | invokeStart hp =>
      rw [hp] at hgoing
      apply Core.Flagged.before
      · intro k hk
        apply absurd hk (Nat.not_lt_zero _)
      · intro k hk
        cases hk
      · intro hidle
        cases hidle
      · intro hs hn k
        apply hgoing hs hn k id
  | @startLoses k' ok hp hx =>
      rw [hp] at hgoing
      apply Core.Flagged.nextStart
      · intro hok
        cases hok
      · intro hs hn k
        rw [Core.running_setWorker]
        split
        · rfl
        · apply hgoing hs hn k id
  | @startWins k' ok hp hx =>
      rw [hp] at hgoing hstart
      constructor
      · intro k hk
        cases ok with
        | false => cases hk
        | true =>
            have hbefore : ∀ k : Stage, k.index < k'.index → (c.worker k).running = true := hstart
            exact Core.running_upTo rfl hbefore k hk
      · intro hs hn k _
        apply Eq.trans (Core.running_setWorker c k k' _)
        split
        · rfl
        · apply hgoing hs hn k id
      · intro k hk
        cases hk
      · rintro ⟨hidle, -⟩
        cases hidle
  | @assign k' ok w hp hw =>
      rw [hp] at hgoing hstart
      have hrunning : w.running = (c.worker k').running := by
        rw [Worker.assign] at hw
        split at hw
        · cases hw
        · cases hw
          rfl
      have hsame := Core.running_setWorker_of_eq hrunning
      apply Core.Flagged.nextStart
      · rintro rfl k hk
        rw [hsame]
        apply hstart k hk
      · intro hs hn k
        rw [hsame]
        apply hgoing hs hn k id
  | invokeStop hp =>
      rw [hp] at hgoing
      apply Core.Flagged.before
      · intro k hk
        cases hk
      · intro k hk
        cases hk
      · intro hidle
        cases hidle
      · intro hs hn k
        apply hgoing hs hn k id
  | callClose hp =>
      rw [hp] at hgoing
      apply Core.Flagged.before
      · intro k hk
        cases hk
      · intro k hk
        cases hk
      · intro hidle
        cases hidle
      · intro hs hn k
        apply hgoing hs hn k id
  | @closeReturns k' hp =>
      rw [hp] at hgoing
      apply Core.Flagged.before
      · intro k hk
        cases k' <;> cases hk
      · intro k hk
        cases k' with
        | post => apply absurd hk (Nat.not_lt_zero _)
        | _ => cases hk
      · intro hidle
        cases k' <;> cases hidle
      · intro hs hn k
        apply hgoing hs hn k id
  | @stopLoses k' hp hx =>
      rw [hp] at hgoing hstop
      have hbefore : ∀ k : Stage, k.index < k'.index → (c.worker k).running = false := hstop
      apply Core.Flagged.nextStop
      · intro hs hn k hk
        rw [Core.running_after c _ hk]
        apply hgoing hs hn k (Nat.lt_asymm hk)
      · apply Core.running_upTo rfl hbefore
  | @stopWins k' hp hx =>
      rw [hp] at hgoing hstop
      have hbefore : ∀ k : Stage, k.index < k'.index → (c.worker k).running = false := hstop
      constructor
      · intro k hk
        cases hk
      · intro hs hn k hk
        have hlt : k'.index < k.index := Nat.lt_of_not_le hk
        apply Eq.trans (Core.running_after c _ hlt)
        apply hgoing hs hn k (Nat.lt_asymm hlt)
      · exact Core.running_upTo rfl hbefore
      · rintro ⟨hidle, -⟩
        cases hidle
  | @notJoinable k' hp hj =>
      rw [hp] at hgoing hstop
      apply Core.Flagged.nextStop
      · intro hs hn k hk
        apply hgoing hs hn k (Nat.not_le_of_lt hk)
      · intro k hk
        apply hstop k hk
  | @joinable k' hp hj =>
      rw [hp] at hgoing hstop
      constructor
      · intro k hk
        cases hk
      · intro hs hn k hk
        apply hgoing hs hn k hk
      · intro k hk
        apply hstop k hk
      · rintro ⟨hidle, -⟩
        cases hidle
  | @join k' hp hx =>
      rw [hp] at hgoing hstop
      have hjoin : (c.worker k').join.running = (c.worker k').running := rfl
      have hsame := Core.running_setWorker_of_eq hjoin
      apply Core.Flagged.nextStop
      · intro hs hn k hk
        rw [hsame]
        apply hgoing hs hn k (Nat.not_le_of_lt hk)
      · intro k hk
        rw [hsame]
        apply hstop k hk

/-- In every reachable state the flags are set from the first successful `start` to the first
`stop`. -/
theorem flagged_of_reachable {s : State σ K} (h : (system σ P).Reachable s) :
  s.core.Flagged
  := by
  apply h.invariant
  · rintro s rfl
    constructor
    · intro k hk
      cases hk
    · intro hstarted
      cases hstarted
    · intro k hk
      cases hk
    · rintro - k
      rfl
  · intro s t s' _ hflag hstep
    obtain ⟨-, a, hc⟩ | ⟨hcontrol, hlife, hrunning⟩ := hstep.control_cases
    · apply hflag.control hc
    · obtain ⟨hstart, hgoing, hstop, hstopped⟩ := hflag
      constructor
      · rw [hcontrol]
        intro k hk
        rw [hrunning]
        apply hstart k hk
      · rw [hcontrol, hlife]
        intro hstarted hnot k hk
        rw [hrunning]
        apply hgoing hstarted hnot k hk
      · rw [hcontrol]
        intro k hk
        rw [hrunning]
        apply hstop k hk
      · rw [Core.Stopped, hcontrol, hlife]
        intro hs k
        rw [hrunning]
        apply hstopped hs k

end Pipeline
