import PipeAI.Pipeline.Release
import PipeAI.Pipeline.Shutdown

/-!
# Starting the pipeline again

The queues are closed only in `stop` (`Core.StopCalled`), and nothing opens them again, while the
flags of the workers can be cleared and set any number of times.  Hence a pipeline whose `start`
has returned true accepts work as long as `start` is not called after a `stop`, and never after
that (`acceptsWork_iff`).

A call of `start` on a running pipeline finds all flags set.  Its steps can be erased from the
run: what the other threads do leads to the same state without the call, but for the record that
it has returned false (`losesStart_of_running`).
-/

namespace Pipeline

variable {σ K : Type}

/-! ### The conditions -/

/-- The most recent call of `start` or `stop` is a `start` that has returned true. -/
def Core.Started (c : Core σ K) : Prop :=
  c.control = .idle ∧ c.lifecycle.getLast? = some (.started true)

/-- The flags of all workers are set. -/
def Core.Running (c : Core σ K) : Prop :=
  ∀ k, (c.worker k).running = true

/-- The queues are open and the workers are running.  A `submit` whose sample finds room in the
raw queue does not wait and is accepted, and so has been every `submit` so far. -/
structure State.AcceptsWork (s : State σ K) : Prop where
  opened : ∀ k, s.closed k = false
  running : s.core.Running
  alive : ∀ k, Alive (s.core.worker k)
  admits : s.raw_queue.shared.queue.length < s.raw_queue.shared.capacity → ∀ sample,
    (BlockingQueue.monitor _).ready (.push sample) s.raw_queue.shared = true
      ∧ (BlockingQueue.monitor _).body (.push sample) s.raw_queue.shared
        = (.pushed true,
          { s.raw_queue.shared with queue := s.raw_queue.shared.queue ++ [sample] })
  accepted : ∀ e ∈ s.raw_queue.log, ∀ sample, e.2.1 = .push sample → e.2.2 = .pushed true

/-- The condition on a step that it does not call `start` after a `stop`. -/
def NoRestart (s : State σ K) (_ : Thread σ) (s' : State σ K) : Prop :=
  s.core.control = .idle → s'.core.control = .starting .preprocess true →
    .stopped ∉ s.core.lifecycle

/-! ### The calls of `start` and `stop` -/

/-- The thread is in `start`. -/
def ControlPc.InStart : ControlPc → Prop
  | .starting _ _ => True
  | .assigning _ _ => True
  | _ => False

/-- The thread is in `stop`. -/
def ControlPc.InStop : ControlPc → Prop
  | .idle => False
  | .starting _ _ => False
  | .assigning _ _ => False
  | _ => True

/-- `stop` has been called. -/
def Core.StopCalled (c : Core σ K) : Prop :=
  .stopped ∈ c.lifecycle ∨ c.control.InStop

/-- The call of `start` in progress, or the one that has returned last, has not been made after a
`stop`. -/
structure Core.Unrestarted (c : Core σ K) : Prop where
  inStart : c.control.InStart → .stopped ∉ c.lifecycle
  returned : ∀ ok, c.lifecycle.getLast? = some (.started ok) → .stopped ∉ c.lifecycle

/-- `start` is in progress after a step when it was before, or when the step calls it. -/
theorem ControlStep.inStart {c c' : Core σ K} {a : Action K} (h : ControlStep c a c')
    (hs : c'.control.InStart) :
  c'.lifecycle = c.lifecycle
    ∧ (c.control.InStart ∨ c.control = .idle ∧ c'.control = .starting .preprocess true)
  := by
  cases h with
  | invokeStart hp => exact ⟨rfl, Or.inr ⟨hp, rfl⟩⟩
  | @startLoses k ok hp hx =>
      rw [hp]
      cases k with
      | post => cases hs
      | _ => exact ⟨rfl, Or.inl trivial⟩
  | startWins hp hx =>
      rw [hp]
      exact ⟨rfl, Or.inl trivial⟩
  | @assign k ok w hp hw =>
      rw [hp]
      cases k with
      | post => cases hs
      | _ => exact ⟨rfl, Or.inl trivial⟩
  | @closeReturns k hp => cases k <;> cases hs
  | @stopLoses k hp hx => cases k <;> cases hs
  | @notJoinable k hp hj => cases k <;> cases hs
  | @join k hp hx => cases k <;> cases hs
  | _ => cases hs

/-- `start` returns from a call in progress. -/
theorem ControlStep.startReturns {c c' : Core σ K} {a : Action K} (h : ControlStep c a c')
    {ok : Bool} (hs : c'.lifecycle = c.lifecycle ++ [.started ok]) :
  c.control.InStart
  := by
  have hreturns : ∀ l : List Event, l ≠ l ++ [.started ok] := by
    intro l hl
    simpa using congrArg List.length hl
  cases h with
  | startLoses hp hx =>
      rw [hp]
      trivial
  | assign hp hw =>
      rw [hp]
      trivial
  | @stopLoses k hp hx =>
      cases k with
      | post => cases List.append_inj_right' hs rfl
      | _ => apply absurd hs (hreturns _)
  | @notJoinable k hp hj =>
      cases k with
      | post => cases List.append_inj_right' hs rfl
      | _ => apply absurd hs (hreturns _)
  | @join k hp hx =>
      cases k with
      | post => cases List.append_inj_right' hs rfl
      | _ => apply absurd hs (hreturns _)
  | _ => apply absurd hs (hreturns _)

/-- `stop` stays called. -/
theorem ControlStep.stopCalled {c c' : Core σ K} {a : Action K} (h : ControlStep c a c')
    (hs : c.StopCalled) :
  c'.StopCalled
  := by
  obtain hmem | hin := hs
  · left
    obtain ⟨hlife, -⟩ | ⟨⟨ok, hlife⟩, -⟩ | ⟨hlife, -⟩ := h.lifecycle
    · rwa [hlife]
    · rw [hlife]
      apply List.mem_append_left _ hmem
    · rw [hlife]
      apply List.mem_append_left _ hmem
  · cases h with
    | callClose hp => exact Or.inr trivial
    | @closeReturns k hp =>
        right
        cases k <;> trivial
    | stopWins hp hx => exact Or.inr trivial
    | joinable hp hj => exact Or.inr trivial
    | @stopLoses k hp hx =>
        cases k with
        | post => exact Or.inl (List.mem_append_right _ (List.mem_singleton.mpr rfl))
        | _ => exact Or.inr trivial
    | @notJoinable k hp hj =>
        cases k with
        | post => exact Or.inl (List.mem_append_right _ (List.mem_singleton.mpr rfl))
        | _ => exact Or.inr trivial
    | @join k hp hx =>
        cases k with
        | post => exact Or.inl (List.mem_append_right _ (List.mem_singleton.mpr rfl))
        | _ => exact Or.inr trivial
    | _ hp =>
        rw [hp] at hin
        cases hin

/-- The calls of `start` have not been made after a `stop` when the step does not make one. -/
theorem ControlStep.unrestarted {c c' : Core σ K} {a : Action K} (h : ControlStep c a c')
    (hs : c.Unrestarted)
    (hcall : c.control = .idle → c'.control = .starting .preprocess true →
      .stopped ∉ c.lifecycle) :
  c'.Unrestarted
  := by
  constructor
  · intro hin
    obtain ⟨hlife, hin' | ⟨hidle, hstarting⟩⟩ := h.inStart hin
    · rw [hlife]
      apply hs.inStart hin'
    · rw [hlife]
      apply hcall hidle hstarting
  · intro ok hlast
    obtain ⟨hlife, -⟩ | ⟨⟨ok', hlife⟩, -⟩ | ⟨hlife, -⟩ := h.lifecycle
    · rw [hlife] at hlast ⊢
      apply hs.returned ok hlast
    · have hnot := hs.inStart (h.startReturns hlife)
      rw [hlife, List.mem_append]
      rintro (hmem | hmem)
      · apply hnot hmem
      · cases List.mem_singleton.mp hmem
    · rw [hlife, List.getLast?_concat] at hlast
      cases hlast

/-! ### The runs without a restart -/

variable [Field K] [LinearOrder K] [DecidableEq σ] {P : Params K}

/-- In every reachable state no queue is closed before `stop` has been called. -/
theorem stopCalled_of_closed {s : State σ K} (h : (system σ P).Reachable s) {k : Stage}
    (hk : s.closed k = true) :
  s.core.StopCalled
  := by
  revert k
  apply h.invariant
  · rintro s rfl k hk
    cases k <;> cases hk
  · intro s t s' hs ih hstep k hk
    have hcalled : s.core.StopCalled := by
      cases hclosed : s.closed k with
      | true => apply ih hclosed
      | false =>
          right
          rw [hstep.closes (synced_of_reachable hs) hclosed hk]
          trivial
    obtain ⟨-, a, hc⟩ | ⟨hcontrol, hlife, -⟩ := hstep.control_cases
    · apply hc.stopCalled hcalled
    · rw [Core.StopCalled, hcontrol, hlife]
      apply hcalled

/-- In the runs without a restart, no call of `start` has been made after a `stop`. -/
theorem unrestarted_of_noRestart {s : State σ K}
    (h : ((system σ P).restrict NoRestart).Reachable s) :
  s.core.Unrestarted
  := by
  apply h.invariant
  · rintro s rfl
    constructor
    · nofun
    · intro ok hlast
      cases hlast
  · rintro s t s' - ih ⟨hstep, hcall⟩
    obtain ⟨-, a, hc⟩ | ⟨hcontrol, hlife, -⟩ := Step.control_cases hstep
    · apply hc.unrestarted ih hcall
    · constructor
      · rw [hcontrol, hlife]
        apply ih.inStart
      · rw [hlife]
        apply ih.returned

omit [Field K] [LinearOrder K] [DecidableEq σ] in
/-- The returns of `start` and `stop` only get more. -/
theorem ControlStep.lifecycle_prefix {c c' : Core σ K} {a : Action K} (h : ControlStep c a c') :
  c.lifecycle <+: c'.lifecycle
  := by
  obtain ⟨hlife, -⟩ | ⟨⟨ok, hlife⟩, -⟩ | ⟨hlife, -⟩ := h.lifecycle
  · rw [hlife]
  · rw [hlife]
    apply List.prefix_append
  · rw [hlife]
    apply List.prefix_append

/-- The returns of `start` and `stop` only get more. -/
theorem Step.lifecycle_prefix {s s' : State σ K} {t : Thread σ} (h : Step P s t s') :
  s.core.lifecycle <+: s'.core.lifecycle
  := by
  obtain ⟨-, a, hc⟩ | ⟨-, hlife, -⟩ := h.control_cases
  · apply hc.lifecycle_prefix
  · rw [hlife]

/-- A run in which `stop` has not returned is one without a restart. -/
theorem noRestart_of_not_stopped {s : State σ K} (h : (system σ P).Reachable s)
    (hnot : .stopped ∉ s.core.lifecycle) :
  ((system σ P).restrict NoRestart).Reachable s
  := by
  induction h with
  | init h => exact TransitionSystem.Reachable.init h
  | @step s s' t _ hstep ih =>
      have hbefore : .stopped ∉ s.core.lifecycle := by
        intro hmem
        apply hnot ((Step.lifecycle_prefix hstep).subset hmem)
      apply (ih hbefore).step
      exact ⟨hstep, fun _ _ => hbefore⟩

/-! ### Started pipelines -/

/-- In every reachable state a thread that has ended has found its flag cleared: where no call of
`start` or `stop` has taken the flag, it has not ended when the flag is set. -/
theorem alive_of_running {s : State σ K} (h : (system σ P).Reachable s) {k : Stage}
    (hnot : ¬ (s.core.control.callPc k).Holds) (hr : (s.core.worker k).running = true) :
  Alive (s.core.worker k)
  := by
  have hthread := (managed_of_reachable h k).2 hnot
  have hexited := Worker.not_running_of_exited ((workerProjection P k).reachable h)
  cases ht : (s.core.worker k).thread with
  | none =>
      rw [hr, ht] at hthread
      cases hthread
  | some pc =>
      cases pc with
      | test => exact Or.inl ht
      | loop => exact Or.inr ht
      | exited => cases hr.symm.trans (hexited ht)

/-- A started pipeline accepts work when `stop` has not returned. -/
theorem acceptsWork_of_not_stopped {s : State σ K} (h : (system σ P).Reachable s)
    (hs : s.core.Started) (hnot : .stopped ∉ s.core.lifecycle) :
  s.AcceptsWork
  := by
  obtain ⟨hidle, hlast⟩ := hs
  have hopened : ∀ k, s.closed k = false := by
    intro k
    cases hk : s.closed k with
    | false => rfl
    | true =>
        obtain hmem | hin := stopCalled_of_closed h hk
        · apply absurd hmem hnot
        · rw [hidle] at hin
          cases hin
  have hrunning : s.core.Running := by
    intro k
    apply (flagged_of_reachable h).going (List.mem_of_getLast? hlast) hnot k
    rw [hidle]
    exact id
  constructor
  · apply hopened
  · apply hrunning
  · intro k
    apply alive_of_running h _ (hrunning k)
    rw [hidle]
    exact id
  · intro hroom sample
    apply BlockingQueue.push_of_room (hopened .preprocess) hroom
  · intro e he sample hop
    have hrun := Monitor.sequential_of_reachable ((rawProjection σ P).reachable h)
    apply BlockingQueue.pushed_of_open hrun (hopened .preprocess) he hop

/-- A started pipeline accepts work just when `stop` has not returned. -/
theorem acceptsWork_iff_not_stopped {s : State σ K} (h : (system σ P).Reachable s)
    (hs : s.core.Started) :
  s.AcceptsWork ↔ .stopped ∉ s.core.lifecycle
  := by
  constructor
  · intro hwork hmem
    cases ((closing_of_reachable h).returned hmem .post).symm.trans (hwork.opened .post)
  · apply acceptsWork_of_not_stopped h hs

/-! ### A call of `start` that loses -/

omit [Field K] [LinearOrder K] [DecidableEq σ] in
/-- The core with another place of the thread that calls `start` and `stop`, and other returns. -/
def Core.withControl (c : Core σ K) (p : ControlPc) (lifecycle : List Event) : Core σ K :=
  { c with control := p, lifecycle := lifecycle }

omit [Field K] [LinearOrder K] [DecidableEq σ] in
/-- The state with another place of the thread that calls `start` and `stop`, and other
returns. -/
def State.withControl (s : State σ K) (p : ControlPc) (lifecycle : List Event) : State σ K :=
  { s with core := s.core.withControl p lifecycle }

omit [Field K] [LinearOrder K] [DecidableEq σ] in
theorem State.withControl_withControl (s : State σ K) (p p' : ControlPc)
    (lifecycle lifecycle' : List Event) :
  (s.withControl p lifecycle).withControl p' lifecycle' = s.withControl p' lifecycle'
  := rfl

omit [Field K] [LinearOrder K] [DecidableEq σ] in
/-- The place of the thread and the returns are put where they are. -/
theorem State.withControl_self {s : State σ K} {p : ControlPc} {lifecycle : List Event}
    (hp : s.core.control = p) (hl : s.core.lifecycle = lifecycle) :
  s.withControl p lifecycle = s
  := by
  rw [← hp, ← hl]
  rfl

/-- The steps of the other threads do not depend on where the thread is that calls `start` and
`stop`. -/
theorem CoreStep.withControl {c c' : Core σ K} {t : Thread σ} {a : Action K}
    (h : CoreStep P c t a c') (ht : t ≠ .control) (p : ControlPc) (lifecycle : List Event) :
  CoreStep P (c.withControl p lifecycle) t a (c'.withControl p lifecycle)
  := by
  rcases t with (_ | _ | _) | _ | i
  · cases h with
    | enter hp ht hr => exact PreprocessStep.enter hp ht hr
    | exit ht hr => exact PreprocessStep.exit ht hr
    | callPop hp => exact PreprocessStep.callPop hp
    | popReturns hp => exact PreprocessStep.popReturns hp
    | popEnds hp => exact PreprocessStep.popEnds hp
    | lock hp hm => exact PreprocessStep.lock hp hm
    | append hp => exact PreprocessStep.append hp
    | swap hp hsize => exact PreprocessStep.swap hp hsize
    | noSwap hp hsize => exact PreprocessStep.noSwap hp hsize
    | unlock hp => exact PreprocessStep.unlock hp
    | skip hp => exact PreprocessStep.skip hp
    | run hp hw hrun => exact PreprocessStep.run hp hw hrun
    | callPush hp => exact PreprocessStep.callPush hp
    | pushReturns hp => exact PreprocessStep.pushReturns hp
  · cases h with
    | enter hp ht hr => exact InferenceStep.enter hp ht hr
    | exit ht hr => exact InferenceStep.exit ht hr
    | callPop hp => exact InferenceStep.callPop hp
    | popReturns hp => exact InferenceStep.popReturns hp
    | popEnds hp => exact InferenceStep.popEnds hp
    | infer hp a => exact InferenceStep.infer (c := c.withControl p lifecycle) hp a
    | callPush hp => exact InferenceStep.callPush hp
    | pushReturns hp => exact InferenceStep.pushReturns hp
  · cases h with
    | enter hp ht hr => exact PostStep.enter hp ht hr
    | exit ht hr => exact PostStep.exit ht hr
    | callPop hp => exact PostStep.callPop hp
    | popReturns hp => exact PostStep.popReturns hp
    | popEnds hp => exact PostStep.popEnds hp
    | callback hp => exact PostStep.callback hp
  · apply absurd rfl ht
  · cases h with
    | submit hp sample => exact SubmitStep.submit (c := c.withControl p lifecycle) hp sample
    | submitReturns hp => exact SubmitStep.submitReturns hp

/-- The steps of the other threads do not depend on where the thread is that calls `start` and
`stop`. -/
theorem Step.withControl {s s' : State σ K} {t : Thread σ} (h : Step P s t s') (ht : t ≠ .control)
    (p : ControlPc) (lifecycle : List Event) :
  Step P (s.withControl p lifecycle) t (s'.withControl p lifecycle)
  := by
  cases h with
  | tau hc => exact Step.tau (hc.withControl ht p lifecycle)
  | rawCall hc hp => exact Step.rawCall (hc.withControl ht p lifecycle) hp
  | rawReturn hc hp => exact Step.rawReturn (hc.withControl ht p lifecycle) hp
  | raw hq => exact Step.raw hq
  | tensorCall hc hp => exact Step.tensorCall (hc.withControl ht p lifecycle) hp
  | tensorReturn hc hp => exact Step.tensorReturn (hc.withControl ht p lifecycle) hp
  | tensor hq => exact Step.tensor hq
  | resultCall hc hp => exact Step.resultCall (hc.withControl ht p lifecycle) hp
  | resultReturn hc hp => exact Step.resultReturn (hc.withControl ht p lifecycle) hp
  | result hq => exact Step.result hq

omit [Field K] [LinearOrder K] [DecidableEq σ] in
/-- A thread that is in no call is inside no queue. -/
theorem Synced.idle_of_calling {s : State σ K} (h : Synced s) {t : Thread σ}
    (ht : s.core.calling t = none) :
  s.raw_queue.phase t = .idle ∧ s.tensor_queue.phase t = .idle ∧ s.result_queue.phase t = .idle
  := by
  have hraw := h.raw t
  have htensor := h.tensor t
  have hresult := h.result t
  rw [Core.rawCall, ht] at hraw
  rw [Core.tensorCall, ht] at htensor
  rw [Core.resultCall, ht] at hresult
  exact ⟨hraw, htensor, hresult⟩

omit [Field K] [LinearOrder K] in
/-- A thread that is in no call takes no step inside a queue. -/
theorem Synced.not_internal {s : State σ K} (h : Synced s) {t : Thread σ}
    (ht : s.core.calling t = none) :
  (∀ q, ¬ (BlockingQueue.monitor _).Internal s.raw_queue t q)
    ∧ (∀ q, ¬ (BlockingQueue.monitor _).Internal s.tensor_queue t q)
    ∧ ∀ q, ¬ (BlockingQueue.monitor _).Internal s.result_queue t q
  := by
  obtain ⟨hraw, htensor, hresult⟩ := h.idle_of_calling ht
  exact ⟨fun q hq => hq.ne_idle hraw, fun q hq => hq.ne_idle htensor,
    fun q hq => hq.ne_idle hresult⟩

omit [Field K] [LinearOrder K] [DecidableEq σ] in
/-- A step in `start` leaves the queues. -/
theorem ControlStep.eq_tau {c c' : Core σ K} {a : Action K} (h : ControlStep c a c')
    (hc : c.control.InStart) :
  a = .tau
  := by
  cases h with
  | callClose hp =>
      rw [hp] at hc
      cases hc
  | closeReturns hp =>
      rw [hp] at hc
      cases hc
  | _ => rfl

/-- The state is `u`, which is reachable, with all flags set and no call of `start` or `stop` in
progress, but for a call of `start` that has taken `n` steps. -/
structure Losing (P : Params K) (n : ℕ) (u s : State σ K) : Prop where
  reachable : (system σ P).Reachable u
  idle : u.core.control = .idle
  running : u.core.Running
  starting : ∃ k ok, k.index = n ∧ s = u.withControl (.starting k ok) u.core.lifecycle

omit [Field K] [LinearOrder K] [DecidableEq σ] in
/-- The state is `u`, but for the record of a `start` that has returned false. -/
def Lost (u s : State σ K) : Prop :=
  s = u.withControl .idle (u.core.lifecycle ++ [.started false])

/-- The steps of the other threads are the same without the call of `start`. -/
theorem Losing.other {n : ℕ} {u s s' : State σ K} {t : Thread σ} (h : Losing P n u s)
    (hs : Step P s t s') (ht : t ≠ .control) :
  ∃ u', Step P u t u' ∧ Losing P n u' s'
  := by
  obtain ⟨hu, hidle, hrunning, k, ok, hk, rfl⟩ := h
  obtain ⟨hcontrol, hlife, hflags⟩ := hs.control_cases.resolve_left (fun h => ht h.1)
  have hstep := hs.withControl ht .idle u.core.lifecycle
  rw [State.withControl_withControl, State.withControl_self hidle rfl] at hstep
  refine ⟨_, hstep, hu.step hstep, rfl, ?_, k, ok, hk, ?_⟩
  · intro k'
    apply (hflags k').trans (hrunning k')
  · rw [State.withControl_withControl]
    symm
    apply State.withControl_self hcontrol hlife

/-- A step of the call of `start` finds the flag set, and goes on or returns false. -/
theorem Losing.self {n : ℕ} {u s s' : State σ K} (h : Losing P n u s) (hs : Step P s .control s') :
  Losing P (n + 1) u s' ∨ Lost u s'
  := by
  obtain ⟨hu, hidle, hrunning, k, ok, rfl, rfl⟩ := h
  have hcalling : u.core.calling .control = none := by
    rw [Core.calling, hidle]
    rfl
  obtain ⟨hraw, htensor, hresult⟩ := (synced_of_reachable hu).not_internal hcalling
  cases hs with
  | tau hc =>
      cases hc with
      | startLoses hp hx =>
          cases hp
          rw [Worker.exchange_of_eq hx, Core.setWorker_self]
          cases k with
          | preprocess => exact Or.inl ⟨hu, hidle, hrunning, .inference, false, rfl, rfl⟩
          | inference => exact Or.inl ⟨hu, hidle, hrunning, .post, false, rfl, rfl⟩
          | post => exact Or.inr rfl
      | startWins hp hx =>
          cases hp
          cases (hrunning k).symm.trans hx
      | _ hp => cases hp
  | raw hq => apply absurd hq (hraw _)
  | tensor hq => apply absurd hq (htensor _)
  | result hq => apply absurd hq (hresult _)
  | rawCall hc hp => cases ControlStep.eq_tau hc trivial
  | rawReturn hc hp => cases ControlStep.eq_tau hc trivial
  | tensorCall hc hp => cases ControlStep.eq_tau hc trivial
  | tensorReturn hc hp => cases ControlStep.eq_tau hc trivial
  | resultCall hc hp => cases ControlStep.eq_tau hc trivial
  | resultReturn hc hp => cases ControlStep.eq_tau hc trivial

/-- The call of `start` can take its next step. -/
theorem Losing.enabled {n : ℕ} {u s : State σ K} (h : Losing P n u s) :
  (system σ P).Enabled .control s
  := by
  obtain ⟨-, -, hrunning, k, ok, -, rfl⟩ := h
  exact ⟨_, Step.tau (ControlStep.startLoses rfl (hrunning k))⟩

/-- A call of `start` from the state `u` returns false and changes nothing.  In every run from the
call on it has taken at most two steps and can take the next one, or it has returned false; and
the steps of the other threads lead from `u` to the same state without the call, but for the
place of the calling thread and the record of the return. -/
def LosesStart (P : Params K) (u : State σ K) : Prop :=
  ∀ ls s', (system σ P).Run (u.withControl (.starting .preprocess true) u.core.lifecycle) ls s' →
    (∃ u', (system σ P).Run u (ls.filter (fun t => t ≠ .control)) u'
        ∧ (∃ k ok, k.index = ls.count .control
          ∧ s' = u'.withControl (.starting k ok) u'.core.lifecycle)
        ∧ (system σ P).Enabled .control s')
      ∨ ∃ ls₁ ls₂ u₁ s₁, ls = ls₁ ++ ls₂
        ∧ (system σ P).Run (u.withControl (.starting .preprocess true) u.core.lifecycle) ls₁ s₁
        ∧ (system σ P).Run s₁ ls₂ s'
        ∧ (system σ P).Run u (ls₁.filter (fun t => t ≠ .control)) u₁
        ∧ s₁ = u₁.withControl .idle (u₁.core.lifecycle ++ [.started false])

/-- A call of `start` when the pipeline is running returns false and changes nothing. -/
theorem losesStart_of_running {u : State σ K} (h : (system σ P).Reachable u)
    (hp : u.core.control = .idle) (hr : u.core.Running) :
  LosesStart P u
  := by
  intro ls s' hrun
  have hlosing : Losing P 0 u (u.withControl (.starting .preprocess true) u.core.lifecycle) :=
    ⟨h, hp, hr, .preprocess, true, rfl, rfl⟩
  obtain ⟨u', hu, hlosing'⟩ | hlost := hrun.erases
    (fun _ _ _ _ _ hlosing hs ht => hlosing.other hs ht)
    (fun _ _ _ _ hlosing hs => hlosing.self hs) hlosing
  · left
    rw [Nat.zero_add] at hlosing'
    exact ⟨u', hu, hlosing'.starting, hlosing'.enabled⟩
  · right
    apply hlost

/-! ### Restarts -/

/-- In a run in which `start` is not called after a `stop`, the pipeline accepts work whenever the
most recent call of `start` or `stop` is a `start` that has returned true; and in any run it does
so then just when `stop` has not returned.  A call of `start` when the pipeline is running
returns false and changes nothing. -/
theorem acceptsWork_iff (P : Params K) :
  (∀ s : State σ K, ((system σ P).restrict NoRestart).Reachable s → s.core.Started →
      s.AcceptsWork)
    ∧ (∀ s : State σ K, (system σ P).Reachable s → s.core.Started →
      (s.AcceptsWork ↔ .stopped ∉ s.core.lifecycle))
    ∧ ∀ s : State σ K, (system σ P).Reachable s → s.core.control = .idle → s.core.Running →
      LosesStart P s
  := by
  refine ⟨?_, ?_, ?_⟩
  · intro s h hs
    apply acceptsWork_of_not_stopped h.of_restrict hs
    apply (unrestarted_of_noRestart h).returned true hs.2
  · intro s h hs
    apply acceptsWork_iff_not_stopped h hs
  · intro s h hp hr
    apply losesStart_of_running h hp hr

/-- The theorem where `start` has returned for the first time. -/
theorem acceptsWork_iff_started :
  ∃ s : State Unit ℚ, ((system Unit Params.small).restrict NoRestart).Reachable s
    ∧ s.core.Started ∧ s.AcceptsWork ∧ (s.AcceptsWork ↔ .stopped ∉ s.core.lifecycle)
    ∧ LosesStart Params.small s
  := by
  obtain ⟨rawLog, tensorLog, resultLog, h⟩ := quiet_started (σ := Unit) (P := Params.small)
  have hrun := noRestart_of_not_stopped h (by simp [Core.started])
  obtain ⟨hwork, hiff, hloses⟩ := acceptsWork_iff (σ := Unit) Params.small
  exact ⟨_, hrun, ⟨rfl, rfl⟩, hwork _ hrun ⟨rfl, rfl⟩, hiff _ h ⟨rfl, rfl⟩,
    hloses _ h rfl (fun _ => rfl)⟩

/-- A pipeline that has been started, stopped and started again: `start` has returned true, but
the queues are closed, and a `submit` is refused although the raw queue is empty. -/
theorem not_acceptsWork_of_restart :
  ∃ s : State Unit ℚ, (system Unit Params.small).Reachable s ∧ s.core.Started
    ∧ s.core.lifecycle = [.started true, .stopped, .started true]
    ∧ (∀ k, s.closed k = true) ∧ s.raw_queue.shared.queue = []
    ∧ (∀ sample, ((BlockingQueue.monitor _).body (.push sample) s.raw_queue.shared).1
      = .pushed false)
    ∧ ¬ s.AcceptsWork
  := by
  have hclosed := (quiet_started (σ := Unit) (P := Params.small)).closeQueues rfl
  have hleft := hclosed.leave rfl rfl rfl rfl rfl rfl rfl rfl rfl
  have hstopped := hleft.stopWorkers rfl (fun k => rfl)
  obtain ⟨rawLog, tensorLog, resultLog, h⟩ := hstopped.startWorkers rfl (fun k => rfl)
  refine ⟨_, h, ⟨rfl, rfl⟩, rfl, ?_, rfl, fun _ => rfl, ?_⟩
  · intro k
    cases k <;> rfl
  · intro hwork
    cases hwork.opened .preprocess

end Pipeline
