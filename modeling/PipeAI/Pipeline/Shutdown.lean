import PipeAI.Pipeline.Delivery
import PipeAI.Pipeline.Lifecycle

/-!
# Shutdown

`stop` closes the three queues one right after the other.  A window whose tensor has not been
accepted when the tensor queue is closed is lost, as is a result that has not been accepted
when the result queue is closed, and a result that is left when the last worker ends without
having entered its loop again.  These are the only losses: when `stop` has returned, a result
has been delivered for every complete block of samples just when the run has been free of them
(`deliversAll_iff`).
-/

namespace Pipeline

variable {σ K : Type}

/-! ### What has been accepted -/

/-- The number of values accepted by the queue of a stage. -/
def State.acceptedCount (s : State σ K) : Stage → ℕ
  | .preprocess => (BlockingQueue.accepted s.raw_queue.log).length
  | .inference => (BlockingQueue.accepted s.tensor_queue.log).length
  | .post => (BlockingQueue.accepted s.result_queue.log).length

/-- The number of complete blocks of the samples accepted. -/
def State.blocks (s : State σ K) : ℕ :=
  s.acceptedCount .preprocess / kTargetLength

variable [Field K] [LinearOrder K] [DecidableEq σ] {P : Params K}

/-- No step that leaves a queue closed accepts a value in it. -/
theorem Step.acceptedCount {s s' : State σ K} {t : Thread σ} (h : Step P s t s') {k : Stage}
    (hk : s'.closed k = true) :
  s'.acceptedCount k = s.acceptedCount k
  := by
  obtain ⟨a, -, hraw, htensor, hresult⟩ | ⟨-, ⟨hq, htensor, hresult⟩ | ⟨hq, hraw, hresult⟩
    | ⟨hq, hraw, htensor⟩⟩ := h.cases
  · cases k with
    | preprocess => rw [State.acceptedCount, hraw.same.2, State.acceptedCount]
    | inference => rw [State.acceptedCount, htensor.same.2, State.acceptedCount]
    | post => rw [State.acceptedCount, hresult.same.2, State.acceptedCount]
  · cases k with
    | preprocess => apply congrArg List.length (BlockingQueue.accepted_of_closed hq hk)
    | inference => rw [State.acceptedCount, htensor, State.acceptedCount]
    | post => rw [State.acceptedCount, hresult, State.acceptedCount]
  · cases k with
    | preprocess => rw [State.acceptedCount, hraw, State.acceptedCount]
    | inference => apply congrArg List.length (BlockingQueue.accepted_of_closed hq hk)
    | post => rw [State.acceptedCount, hresult, State.acceptedCount]
  · cases k with
    | preprocess => rw [State.acceptedCount, hraw, State.acceptedCount]
    | inference => rw [State.acceptedCount, htensor, State.acceptedCount]
    | post => apply congrArg List.length (BlockingQueue.accepted_of_closed hq hk)

/-- In every reachable state, there are at most as many tensors as complete blocks, at most as
many results as tensors, and at most as many results delivered as results. -/
theorem counts_of_reachable {s : State σ K} (h : (system σ P).Reachable s) :
  s.acceptedCount .inference ≤ s.blocks
    ∧ s.acceptedCount .post ≤ s.acceptedCount .inference
    ∧ s.core.callbacks.length ≤ s.acceptedCount .post
  := by
  obtain ⟨hraw, htensor, hresult⟩ := accepted_eq h
  obtain ⟨hconsumed, hwindows, -, -⟩ := forming_of_reachable h
  obtain ⟨L, hoffered, htensors⟩ := transforming_of_reachable h
  obtain ⟨hconsumed', ⟨L', hoffered', hresults⟩, -⟩ := inferring_of_reachable h
  obtain ⟨L'', hconsumed'', hcallbacks⟩ := posting_of_reachable h
  refine ⟨?_, ?_, ?_⟩
  · have hlen : s.core.windows.flatten.length = s.core.windows.length * kTargetLength := by
      rw [List.length_flatten, List.map_congr_left hwindows, List.map_const', List.sum_replicate,
        smul_eq_mul]
    have hle : (BlockingQueue.accepted s.tensor_queue.log).length ≤ s.core.windows.length := by
      apply hoffered.isPrefix.length_le.trans
      apply le_trans _ (List.length_filterMap_le (tensorOf P) s.core.windows)
      rw [htensors, List.length_append]
      omega
    rw [State.blocks, Nat.le_div_iff_mul_le (by decide), State.acceptedCount, State.acceptedCount,
      hraw, hconsumed]
    simp only [List.length_append, hlen]
    have hmul := Nat.mul_le_mul_right kTargetLength hle
    omega
  · have hlen : (resultsOf s.core.inferred).length = s.core.inferred.length :=
      List.length_mapIdx
    have hle := hoffered'.isPrefix.length_le
    rw [State.acceptedCount, State.acceptedCount, htensor, hconsumed']
    rw [hresults, List.length_append] at hlen
    simp only [List.length_append, List.length_map]
    omega
  · rw [State.acceptedCount, hresult, hconsumed'', hcallbacks]
    simp only [List.length_append, List.length_map]
    omega

/-- In every reachable state, the third stage has found nothing to pop only when the result queue
is closed and empty. -/
theorem emptied_of_reachable {s : State σ K} (h : (system σ P).Reachable s) :
  BlockingQueue.Emptied s.result_queue (.stage .post)
  := by
  apply h.invariant
  · rintro s rfl hv
    cases hv
  · intro s t s' hs hemptied hstep
    obtain ⟨a, -, -, -, hresult⟩ | ⟨-, ⟨-, -, hq⟩ | ⟨-, -, hq⟩ | ⟨hq, -, -⟩⟩ := hstep.cases
    · apply hemptied.run hresult
    · rw [hq]
      apply hemptied
    · rw [hq]
      apply hemptied
    · apply hemptied.internal _ hq
      intro op hv hop
      obtain ⟨result, ht, -⟩ | ⟨-, -, hpop⟩ | ⟨ht, -⟩ :=
        Core.resultCall_cases (((synced_of_reachable hs).result _).of_before hv)
      · cases ht
      · apply hpop
      · cases ht

/-- When the third stage has found nothing to pop, it has delivered all results. -/
theorem callbacks_of_emptied {s : State σ K} (h : (system σ P).Reachable s)
    (hp : s.core.post = .popping) {pending : List (Signal BlockingQueue.Cond)}
    (hphase : s.result_queue.phase (.stage .post) = .leaving (.popped none) pending) :
  s.core.callbacks.length = s.acceptedCount .post
  := by
  obtain ⟨L, hconsumed, hcallbacks⟩ := posting_of_reachable h
  have hempty := (emptied_of_reachable h (by rw [hphase]; rfl)).2
  rw [State.acceptedCount, (accepted_eq h).2.2, hconsumed, hempty, hp, hphase, hcallbacks]
  simp [PostPc.result, BlockingQueue.takenValue]

/-! ### Losses -/

omit [Field K] [LinearOrder K] [DecidableEq σ] in
/-- The condition on a step that nothing is lost in it: the tensor queue is closed only when the
tensors of all complete blocks have been accepted, and the result queue only when the results of
all tensors have; and `stop` clears the flag of the last worker only when its thread is in its
loop, or has delivered all results. -/
structure Graceful (s : State σ K) (_ : Thread σ) (s' : State σ K) : Prop where
  tensor : s.closed .inference = false → s'.closed .inference = true →
    s.acceptedCount .inference = s.blocks
  result : s.closed .post = false → s'.closed .post = true →
    s.acceptedCount .post = s.acceptedCount .inference
  post : s.core.control = .stopping .post → s'.core.control = .testing .post →
    (s.core.worker .post).thread = some .loop
      ∨ s.core.callbacks.length = s.acceptedCount .post

omit [Field K] [LinearOrder K] [DecidableEq σ] in
/-- `stop` has cleared the flag of the last worker and has not yet joined its thread. -/
def Core.Ending (c : Core σ K) : Prop :=
  c.control = .testing .post ∨ c.control = .joining .post

omit [Field K] [LinearOrder K] [DecidableEq σ] in
/-- All results have been delivered when `stop` has returned; or else the last worker is still in
its loop while `stop` waits for it. -/
structure Drained (s : State σ K) : Prop where
  ending : s.core.Ending → s.core.InLoop .post
    ∨ s.core.callbacks.length = s.acceptedCount .post
  stopped : s.core.Stopped → s.core.callbacks.length = s.acceptedCount .post

omit [Field K] [LinearOrder K] [DecidableEq σ] in
/-- Nothing has been lost: all tensors have been accepted once the tensor queue is closed, all
results once the result queue is closed, and all have been delivered in the end. -/
structure Lossless (s : State σ K) : Prop where
  tensor : s.closed .inference = true → s.acceptedCount .inference = s.blocks
  result : s.closed .post = true → s.acceptedCount .post = s.acceptedCount .inference
  drained : Drained s

omit [Field K] [LinearOrder K] [DecidableEq σ] in
/-- `stop` has not returned yet, or has returned for the first time and neither `start` nor `stop`
has been called since. -/
def Core.First (c : Core σ K) : Prop :=
  .stopped ∉ c.lifecycle ∨ c.Stopped

/-! ### The end of `stop` -/

omit [Field K] [LinearOrder K] [DecidableEq σ] in
/-- `start` and `stop` go on, or return. -/
theorem ControlStep.lifecycle {c c' : Core σ K} {a : Action K} (h : ControlStep c a c') :
  (c'.lifecycle = c.lifecycle ∧ c'.control ≠ .idle)
    ∨ (∃ ok, c'.lifecycle = c.lifecycle ++ [.started ok]) ∧ c'.control = .idle
    ∨ c'.lifecycle = c.lifecycle ++ [.stopped] ∧ c'.control = .idle
  := by
  cases h with
  | @startLoses k ok hp hx =>
      cases k with
      | post => exact Or.inr (Or.inl ⟨⟨_, rfl⟩, rfl⟩)
      | _ => exact Or.inl ⟨rfl, nofun⟩
  | @assign k ok w hp hw =>
      cases k with
      | post => exact Or.inr (Or.inl ⟨⟨_, rfl⟩, rfl⟩)
      | _ => exact Or.inl ⟨rfl, nofun⟩
  | @stopLoses k hp hx =>
      cases k with
      | post => exact Or.inr (Or.inr ⟨rfl, rfl⟩)
      | _ => exact Or.inl ⟨rfl, nofun⟩
  | @notJoinable k hp hj =>
      cases k with
      | post => exact Or.inr (Or.inr ⟨rfl, rfl⟩)
      | _ => exact Or.inl ⟨rfl, nofun⟩
  | @join k hp hx =>
      cases k with
      | post => exact Or.inr (Or.inr ⟨rfl, rfl⟩)
      | _ => exact Or.inl ⟨rfl, nofun⟩
  | @closeReturns k hp => cases k <;> exact Or.inl ⟨rfl, nofun⟩
  | _ => exact Or.inl ⟨rfl, nofun⟩

omit [Field K] [LinearOrder K] [DecidableEq σ] in
/-- When a step leads to the first return of `stop`, it has not returned before the step, or the
step leaves it so. -/
theorem ControlStep.first {c c' : Core σ K} {a : Action K} (h : ControlStep c a c')
    (hfirst : c'.First) :
  .stopped ∉ c.lifecycle
  := by
  obtain ⟨hlife, hcontrol⟩ | ⟨⟨ok, hlife⟩, -⟩ | ⟨hlife, -⟩ := h.lifecycle
  · obtain hnot | ⟨hidle, -⟩ := hfirst
    · rwa [hlife] at hnot
    · apply absurd hidle hcontrol
  · obtain hnot | ⟨-, before, hbefore, -⟩ := hfirst
    · rw [hlife, List.mem_append] at hnot
      intro hmem
      apply hnot (Or.inl hmem)
    · rw [hlife] at hbefore
      cases List.append_inj_right' hbefore rfl
  · obtain hnot | ⟨-, before, hbefore, hmem, -⟩ := hfirst
    · rw [hlife, List.mem_append] at hnot
      intro hmem
      apply hnot (Or.inl hmem)
    · rw [hlife] at hbefore
      rwa [List.append_inj_left' hbefore rfl]

omit [Field K] [LinearOrder K] [DecidableEq σ] in
/-- `stop` has returned after `start` has returned true. -/
theorem Core.stopped_of_lifecycle {c : Core σ K} (hp : c.control = .idle)
    (hlife : c.lifecycle = [.started true, .stopped]) :
  c.Stopped
  := by
  use hp, [.started true], hlife
  simp

/-- Before the first return of `stop` is a time when it has not returned. -/
theorem Step.first {s s' : State σ K} {t : Thread σ} (h : Step P s t s') (hfirst : s'.core.First) :
  s.core.First
  := by
  obtain ⟨-, a, hc⟩ | ⟨hcontrol, hlife, -⟩ := h.control_cases
  · left
    apply hc.first hfirst
  · rw [Core.First, Core.Stopped, hcontrol, hlife] at hfirst
    apply hfirst

omit [Field K] [LinearOrder K] [DecidableEq σ] in
/-- What a step means for the end of `stop`: `stop` waits for the last worker; it has returned,
and rests; it clears the flag of the last worker; it returns when the last worker has ended; or
none of these. -/
inductive Core.EndStep (c c' : Core σ K) : Prop where
  | waits (h : c.Ending) (h' : c'.Ending)
  | rests (h : c.Stopped) (h' : c'.Stopped)
  | clears (h : c.control = .stopping .post) (h' : c'.control = .testing .post)
      (hloop : c'.InLoop .post ↔ c.InLoop .post) (hcallbacks : c'.callbacks = c.callbacks)
  | returns (h : c.Ending) (h' : c'.Stopped) (hloop : ¬ c.InLoop .post)
      (hcallbacks : c'.callbacks = c.callbacks)
  | other (h : ¬ c.Ending) (hs : ¬ c.Stopped) (h' : ¬ c'.Ending) (hs' : ¬ c'.Stopped)

omit [Field K] [LinearOrder K] [DecidableEq σ] in
/-- Where a call is in progress other than at the end of `stop`. -/
theorem Core.not_ending {c : Core σ K} {p : ControlPc} (hp : c.control = p)
    (hne : p ≠ .testing .post ∧ p ≠ .joining .post) :
  ¬ c.Ending
  := by
  rintro (h | h)
  · apply hne.1 (hp.symm.trans h)
  · apply hne.2 (hp.symm.trans h)

omit [Field K] [LinearOrder K] [DecidableEq σ] in
/-- Where a call is in progress, `stop` has not just returned. -/
theorem Core.not_stopped {c : Core σ K} {p : ControlPc} (hp : c.control = p) (hi : p ≠ .idle) :
  ¬ c.Stopped
  := by
  rintro ⟨h, -⟩
  apply hi (hp.symm.trans h)

omit [Field K] [LinearOrder K] [DecidableEq σ] in
/-- A call that goes on, before and after the step other than at the end of `stop`. -/
theorem Core.EndStep.elsewhere {c c' : Core σ K} {p p' : ControlPc} (hp : c.control = p)
    (hp' : c'.control = p') (hrest : ¬ c.Stopped)
    (hne : p ≠ .testing .post ∧ p ≠ .joining .post)
    (hne' : (p' ≠ .testing .post ∧ p' ≠ .joining .post) ∧ p' ≠ .idle) :
  c.EndStep c'
  := .other (Core.not_ending hp hne) hrest (Core.not_ending hp' hne'.1)
    (Core.not_stopped hp' hne'.2)

/-- A step of `start` or `stop` means one of these for the end of `stop`. -/
theorem ControlStep.endStep {s : State σ K} {c' : Core σ K} {a : Action K}
    (h : (system σ P).Reachable s) (hc : ControlStep s.core a c') (hfirst : c'.First) :
  s.core.EndStep c'
  := by
  have hnot := hc.first hfirst
  have hrest : ¬ s.core.Stopped := by
    rintro ⟨-, before, hbefore, -⟩
    rw [hbefore, List.mem_append] at hnot
    apply hnot (Or.inr (List.mem_singleton_self _))
  cases hc with
  | invokeStart hp =>
      exact .elsewhere hp rfl hrest (by simp) (by simp)
  | @startLoses k ok hp hx =>
      cases k with
      | post =>
          refine .other (Core.not_ending hp (by simp)) hrest
            (Core.not_ending rfl (by simp [Core.nextStart, Stage.next])) ?_
          rintro ⟨-, before, hbefore, -⟩
          cases List.append_inj_right' hbefore rfl
      | _ =>
          exact .elsewhere hp rfl hrest (by simp) (by simp [Core.nextStart, Stage.next])
  | startWins hp hx =>
      exact .elsewhere hp rfl hrest (by simp) (by simp)
  | @assign k ok w hp hw =>
      cases k with
      | post =>
          refine .other (Core.not_ending hp (by simp)) hrest
            (Core.not_ending rfl (by simp [Core.nextStart, Stage.next])) ?_
          rintro ⟨-, before, hbefore, -⟩
          cases List.append_inj_right' hbefore rfl
      | _ =>
          exact .elsewhere hp rfl hrest (by simp) (by simp [Core.nextStart, Stage.next])
  | invokeStop hp =>
      exact .elsewhere hp rfl hrest (by simp) (by simp)
  | callClose hp =>
      exact .elsewhere hp rfl hrest (by simp) (by simp)
  | @closeReturns k hp =>
      cases k <;>
        exact .elsewhere hp rfl hrest (by simp) (by simp [Core.nextClose, Stage.next])
  | @stopLoses k hp hx =>
      cases k with
      | post =>
          refine .other (Core.not_ending hp (by simp)) hrest
            (Core.not_ending rfl (by simp [Core.nextStop, Stage.next])) ?_
          rintro ⟨-, before, hbefore, -, hstarted⟩
          rw [← List.append_inj_left' hbefore rfl] at hstarted
          have hrunning := (flagged_of_reachable h).going hstarted hnot .post (by
            rw [hp]
            apply Nat.lt_irrefl)
          cases hrunning.symm.trans hx
      | _ =>
          exact .elsewhere hp rfl hrest (by simp) (by simp [Core.nextStop, Stage.next])
  | @stopWins k hp hx =>
      cases k with
      | post => exact .clears hp rfl Iff.rfl rfl
      | _ =>
          exact .elsewhere hp rfl hrest (by simp) (by simp)
  | @notJoinable k hp hj =>
      have hagrees := (managed_of_reachable h k).1
      rw [hp, ControlPc.callPc, if_pos rfl, Worker.Agrees] at hagrees
      cases hj.symm.trans hagrees.2
  | @joinable k hp hj =>
      cases k with
      | post => exact .waits (Or.inl hp) (Or.inr rfl)
      | _ =>
          exact .elsewhere hp rfl hrest (by simp) (by simp)
  | @join k hp hx =>
      cases k with
      | post =>
          obtain hmem | hstopped := hfirst
          · exfalso
            apply hmem
            simp [Core.nextStop, Stage.next]
          · refine .returns (Or.inr hp) hstopped ?_ rfl
            rw [← attached_of_reachable h .post, hx]
            simp
      | _ =>
          exact .elsewhere hp rfl hrest (by simp) (by simp [Core.nextStop, Stage.next])

/-- Every step means one of these for the end of `stop`. -/
theorem Step.endStep {s s' : State σ K} {t : Thread σ} (h : (system σ P).Reachable s)
    (hstep : Step P s t s') (hfirst : s'.core.First) :
  s.core.EndStep s'.core
  := by
  have hsame : s'.core.control = s.core.control ∧ s'.core.lifecycle = s.core.lifecycle →
      s.core.EndStep s'.core := by
    rintro ⟨hcontrol, hlife⟩
    have hending : s'.core.Ending ↔ s.core.Ending := by rw [Core.Ending, hcontrol, Core.Ending]
    have hstopped : s'.core.Stopped ↔ s.core.Stopped := by
      rw [Core.Stopped, hcontrol, hlife, Core.Stopped]
    by_cases he : s.core.Ending
    · exact .waits he (hending.mpr he)
    · by_cases hs : s.core.Stopped
      · exact .rests hs (hstopped.mpr hs)
      · exact .other he hs (he ∘ hending.mp) (hs ∘ hstopped.mp)
  obtain ⟨-, a, hc⟩ | ⟨hcontrol, hlife, -⟩ := hstep.control_cases
  · apply hc.endStep h hfirst
  · exact hsame ⟨hcontrol, hlife⟩

/-- While `stop` waits for the last worker, it leaves its loop only when it has delivered all
results, and delivers results only in its loop. -/
theorem Step.ending {s s' : State σ K} {t : Thread σ} (h : (system σ P).Reachable s)
    (hstep : Step P s t s') (he : s.core.Ending) :
  (s'.core.InLoop .post ∨ s'.core.callbacks.length = s'.acceptedCount .post)
    ↔ (s.core.InLoop .post ∨ s.core.callbacks.length = s.acceptedCount .post)
  := by
  have hclosed : s.closed .post = true := by
    apply (closing_of_reachable h).past
    obtain hp | hp := he <;> rw [hp] <;> trivial
  have hrunning : (s.core.worker .post).running = false := by
    apply (flagged_of_reachable h).stopping
    obtain hp | hp := he <;> rw [hp] <;> apply Nat.le_refl
  rw [hstep.acceptedCount (hstep.closed hclosed)]
  obtain ⟨a, hc, -, -, hresult⟩ | ⟨hcore, -⟩ := hstep.cases
  · by_cases ht : t = .stage .post
    · subst ht
      have hin : ∀ p, s.core.post = p → p ≠ .outside → s.core.InLoop .post := by
        rintro p rfl hp
        apply hp
      generalize s'.core = c' at hc
      cases hc with
      | enter hp ht hr =>
          rw [hrunning] at hr
          cases hr
      | exit ht hr => exact Iff.rfl
      | popEnds hp =>
          have hcallbacks := callbacks_of_emptied h hp hresult.1
          exact iff_of_true (Or.inr hcallbacks) (Or.inr hcallbacks)
      | callback hp => exact iff_of_true (Or.inl nofun) (Or.inl (hin _ hp nofun))
      | _ hp => exact iff_of_true (Or.inl nofun) (Or.inl (hin _ hp nofun))
    · rw [hc.inLoop ht, (hc.posting ht).2]
  · rw [hcore]

/-- When `stop` has returned, no results are delivered. -/
theorem Step.stopped {s s' : State σ K} {t : Thread σ} (h : (system σ P).Reachable s)
    (hstep : Step P s t s') (hs : s.core.Stopped) :
  s'.core.callbacks.length = s'.acceptedCount .post
    ↔ s.core.callbacks.length = s.acceptedCount .post
  := by
  have hclosed : s.closed .post = true := by
    obtain ⟨-, before, hbefore, -⟩ := hs
    apply (closing_of_reachable h).returned
    rw [hbefore]
    simp
  have hthread : (s.core.worker .post).thread = none := by
    have hrunning := (flagged_of_reachable h).stopped hs .post
    have hmanaged := (managed_of_reachable h .post).2 (by rw [hs.1]; apply id)
    rw [hrunning] at hmanaged
    simpa using hmanaged.symm
  rw [hstep.acceptedCount (hstep.closed hclosed)]
  obtain ⟨a, hc, -⟩ | ⟨hcore, -⟩ := hstep.cases
  · by_cases ht : t = .stage .post
    · subst ht
      cases hc.loopStep with
      | inside hw hin hin' =>
          rw [← attached_of_reachable h, hthread] at hin
          cases hin
      | enter ht hr hw hin' => cases hthread.symm.trans ht
      | exit ht hr hw hin' => cases hthread.symm.trans ht
      | leave hw hin hin' =>
          rw [← attached_of_reachable h, hthread] at hin
          cases hin
    · rw [(hc.posting ht).2]
  · rw [hcore]

omit [Field K] [LinearOrder K] [DecidableEq σ] in
/-- While `stop` is at its end, it has not returned. -/
theorem Core.Ending.not_stopped {c : Core σ K} (h : c.Ending) :
  ¬ c.Stopped
  := by
  obtain hp | hp := h
  · exact Core.not_stopped hp nofun
  · exact Core.not_stopped hp nofun

/-- The results left in the end are delivered just when they were before the step, unless the step
clears the flag of the last worker. -/
theorem Drained.step_iff {s s' : State σ K} {t : Thread σ} (h : (system σ P).Reachable s)
    (hstep : Step P s t s') (hfirst : s'.core.First) :
  Drained s' ↔ Drained s ∧ (s.core.control = .stopping .post → s'.core.control = .testing .post →
    (s.core.worker .post).thread = some .loop ∨ s.core.callbacks.length = s.acceptedCount .post)
  := by
  have hcount : (∀ k, s.core.control.PastClose k) →
      s'.acceptedCount .post = s.acceptedCount .post := by
    intro hpast
    apply hstep.acceptedCount (hstep.closed ((closing_of_reachable h).past .post (hpast .post)))
  cases hstep.endStep h hfirst with
  | waits he he' =>
      have hnot : s.core.control ≠ .stopping .post := by
        obtain hp | hp := he <;> rw [hp] <;> nofun
      have hiff := hstep.ending h he
      constructor
      · intro hd
        exact ⟨⟨fun _ => hiff.mp (hd.ending he'), fun hs => absurd hs he.not_stopped⟩,
          fun hp => absurd hp hnot⟩
      · rintro ⟨hd, -⟩
        exact ⟨fun _ => hiff.mpr (hd.ending he), fun hs => absurd hs he'.not_stopped⟩
  | rests hs hs' =>
      have hiff := hstep.stopped h hs
      constructor
      · intro hd
        exact ⟨⟨fun he => absurd hs he.not_stopped, fun _ => hiff.mp (hd.stopped hs')⟩,
          fun hp => absurd (hs.1.symm.trans hp) nofun⟩
      · rintro ⟨hd, -⟩
        exact ⟨fun he => absurd hs' he.not_stopped, fun _ => hiff.mpr (hd.stopped hs)⟩
  | clears hp hp' hloop hcallbacks =>
      have hne : ¬ s.core.Ending := Core.not_ending hp (by simp)
      have hns : ¬ s.core.Stopped := Core.not_stopped hp nofun
      have he' : s'.core.Ending := Or.inl hp'
      rw [← attached_of_reachable h .post] at hloop
      rw [← hcount (by rw [hp]; intro k; trivial), ← hcallbacks, ← hloop]
      constructor
      · intro hd
        exact ⟨⟨fun he => absurd he hne, fun hs => absurd hs hns⟩, fun _ _ => hd.ending he'⟩
      · rintro ⟨-, hg⟩
        exact ⟨fun _ => hg hp hp', fun hs => absurd hs he'.not_stopped⟩
  | returns he hs' hloop hcallbacks =>
      have hnot : s.core.control ≠ .stopping .post := by
        obtain hp | hp := he <;> rw [hp] <;> nofun
      have hpast : ∀ k, s.core.control.PastClose k := by
        intro k
        obtain hp | hp := he <;> rw [hp] <;> trivial
      constructor
      · intro hd
        refine ⟨⟨fun _ => Or.inr ?_, fun hs => absurd hs he.not_stopped⟩,
          fun hp => absurd hp hnot⟩
        rw [← hcallbacks, ← hcount hpast]
        apply hd.stopped hs'
      · rintro ⟨hd, -⟩
        refine ⟨fun he' => absurd hs' he'.not_stopped, fun _ => ?_⟩
        rw [hcallbacks, hcount hpast]
        apply (hd.ending he).resolve_left hloop
  | other hne hns hne' hns' =>
      constructor
      · intro _
        exact ⟨⟨fun he => absurd he hne, fun hs => absurd hs hns⟩,
          fun _ hp' => absurd (Or.inl hp') hne'⟩
      · intro _
        exact ⟨fun he => absurd he hne', fun hs => absurd hs hns'⟩

/-- A step leads to a state where nothing has been lost just when it leads from one and meets the
condition, until `start` or `stop` is called again. -/
theorem Lossless.step_iff {s s' : State σ K} {t : Thread σ} (h : (system σ P).Reachable s)
    (hstep : Step P s t s') (hfirst : s'.core.First) :
  Lossless s' ↔ Lossless s ∧ Graceful s t s'
  := by
  have hclosing := closing_of_reachable (h.step hstep)
  have htensor : s'.closed .inference = true →
      (s'.acceptedCount .inference = s'.blocks ↔ s.acceptedCount .inference = s.blocks) := by
    intro hc
    have hraw := hclosing.order .preprocess .inference (by decide) hc
    rw [State.blocks, State.blocks, hstep.acceptedCount hc, hstep.acceptedCount hraw]
  have hresult : s'.closed .post = true →
      (s'.acceptedCount .post = s'.acceptedCount .inference
        ↔ s.acceptedCount .post = s.acceptedCount .inference) := by
    intro hc
    have hinf := hclosing.order .inference .post (by decide) hc
    rw [hstep.acceptedCount hc, hstep.acceptedCount hinf]
  have hdrained := Drained.step_iff h hstep hfirst
  constructor
  · intro hl
    constructor
    · constructor
      · intro hc
        exact (htensor (hstep.closed hc)).mp (hl.tensor (hstep.closed hc))
      · intro hc
        exact (hresult (hstep.closed hc)).mp (hl.result (hstep.closed hc))
      · exact (hdrained.mp hl.drained).1
    · constructor
      · intro _ hc
        exact (htensor hc).mp (hl.tensor hc)
      · intro _ hc
        exact (hresult hc).mp (hl.result hc)
      · exact (hdrained.mp hl.drained).2
  · rintro ⟨hl, hg⟩
    constructor
    · intro hc
      apply (htensor hc).mpr
      cases hopen : s.closed .inference with
      | true => apply hl.tensor hopen
      | false => apply hg.tensor hopen hc
    · intro hc
      apply (hresult hc).mpr
      cases hopen : s.closed .post with
      | true => apply hl.result hopen
      | false => apply hg.result hopen hc
    · exact hdrained.mpr ⟨hl.drained, hg.post⟩

/-- A run up to the first return of `stop` meets the condition just when nothing has been lost in
its last state. -/
theorem graceful_iff_lossless {s : State σ K} (h : (system σ P).Reachable s)
    (hfirst : s.core.First) :
  ((system σ P).restrict Graceful).Reachable s ↔ Lossless s
  := by
  have hinit : Lossless (State.initial σ P) := by
    constructor
    · intro hc
      cases hc
    · intro hc
      cases hc
    · constructor
      · rintro (hp | hp) <;> cases hp
      · rintro ⟨-, before, hbefore, -⟩
        cases before <;> cases hbefore
  constructor
  · intro hg
    induction hg with
    | init hs =>
        cases hs
        apply hinit
    | step hr hs ih =>
        have hreach := hr.of_restrict
        rw [Lossless.step_iff hreach hs.1 hfirst]
        exact ⟨ih hreach (Step.first hs.1 hfirst), hs.2⟩
  · intro hl
    induction h with
    | init hs => exact TransitionSystem.Reachable.init hs
    | step hr hs ih =>
        obtain ⟨hl, hg⟩ := (Lossless.step_iff hr hs hfirst).mp hl
        exact (ih (Step.first hs hfirst) hl).step ⟨hs, hg⟩

/-! ### Delivery -/

/-- The callback has been invoked exactly once for every complete block of the samples accepted,
in their order, with the result of inference on the tensor of the block. -/
def DeliversAll (P : Params K) (s : State σ K) : Prop :=
  s.core.callbacks.length = s.blocks
    ∧ ∀ k, k < s.core.callbacks.length → ∃ (input : ModelInput K) (a : Answer K),
      tensorOf P (block (BlockingQueue.accepted s.raw_queue.log) k) = some input
        ∧ s.core.inferred[k]? = some (input, a)
        ∧ s.core.callbacks[k]?
          = some (Classifier.classify P.exp (inferenceResult (UInt64.ofNat (k + 1)) a))

/-- When `stop` has returned, all has been delivered just when nothing has been lost. -/
theorem deliversAll_iff_lossless {s : State σ K} (h : (system σ P).Reachable s)
    (hs : s.core.Stopped) :
  DeliversAll P s ↔ Lossless s
  := by
  obtain ⟨htensor, hresult, hcallbacks⟩ := counts_of_reachable h
  have hclosed : ∀ k, s.closed k = true := by
    obtain ⟨-, before, hbefore, -⟩ := hs
    apply (closing_of_reachable h).returned
    rw [hbefore]
    simp
  constructor
  · rintro ⟨hlen, -⟩
    constructor
    · intro _
      omega
    · intro _
      omega
    · constructor
      · intro he
        apply absurd hs he.not_stopped
      · intro _
        omega
  · intro hl
    constructor
    · rw [hl.drained.stopped hs, hl.result (hclosed _), hl.tensor (hclosed _)]
    · intro k hk
      have hr := List.getElem?_eq_getElem hk
      obtain ⟨input, a, hinferred, heq⟩ := callbacks_of_reachable h hr
      rw [heq] at hr
      exact ⟨input, a, (inferred_of_reachable h hinferred).1, hinferred, hr⟩

/-- When `stop` has returned after a successful `start`, the callback has been invoked exactly
once for every complete block of the samples accepted just when the state is reached by a run in
which every step meets the condition. -/
theorem deliversAll_iff (P : Params K) {s : State σ K} (h : (system σ P).Reachable s)
    (hs : s.core.Stopped) :
  DeliversAll P s ↔ ((system σ P).restrict Graceful).Reachable s
  := by
  rw [graceful_iff_lossless h (Or.inr hs), deliversAll_iff_lossless h hs]

/-- A run that loses nothing: a window is delivered, and the pipeline is stopped. -/
theorem deliversAll_iff_window :
  ∃ s : State Unit ℚ, (system Unit Params.small).Reachable s ∧ s.core.Stopped
    ∧ s.core.callbacks.length = 1
    ∧ (DeliversAll Params.small s ↔ ((system Unit Params.small).restrict Graceful).Reachable s)
  := by
  obtain ⟨input, htensor, hw⟩ := exists_quiet_afterWindow
  have hleft := (hw.closeQueues rfl).leave rfl rfl rfl rfl rfl rfl rfl rfl rfl
  obtain ⟨rawLog, tensorLog, resultLog, h⟩ := hleft.stopWorkers rfl (fun k => rfl)
  refine ⟨_, h, ?_, rfl, ?_⟩
  · exact Core.stopped_of_lifecycle rfl rfl
  · exact deliversAll_iff Params.small h (Core.stopped_of_lifecycle rfl rfl)

/-- The last sample of a window is accepted, but popped only after `stop` has closed the queues,
so that the tensor of the window is refused. -/
theorem Quiet.lose {c : Core σ K} (h : Quiet P c) (hc : c.Ready)
    (hworker : ∀ k, c.worker k = ⟨true, some .loop⟩) (i : σ) (sample : RawSample K)
    (hlen : c.window_buffer.length + 1 = kTargetLength) :
  ∃ s : State σ K, (system σ P).Reachable s ∧ s.core.control = .idle
    ∧ s.core.lifecycle = c.lifecycle ++ [.stopped] ∧ s.core.callbacks = c.callbacks
    ∧ BlockingQueue.accepted s.raw_queue.log
      = c.windows.flatten ++ (c.window_buffer ++ [sample])
  := by
  have hsize : (c.window_buffer ++ [sample]).length = kTargetLength := by
    rw [List.length_append, List.length_singleton, hlen]
  obtain ⟨input, htensor⟩ := exists_tensorOf P hsize
  obtain ⟨status, report, hrun, hok⟩ := run_of_tensorOf htensor
  have h₁ := Resting.onRaw h (.submitter i) (.push sample) (pushReady_empty ..)
    (SubmitStep.submit (hc.submitting i) sample)
    (SubmitStep.submitReturns (Function.update_self i (some sample) c.submitting))
  have h₂ := h₁.closeQueues hc.control
  have h₃ := h₂.onRaw (.stage .preprocess) .pop rfl (PreprocessStep.callPop hc.preprocess)
    (PreprocessStep.popReturns rfl)
  have h₄ := h₃.tau (.stage .preprocess) (PreprocessStep.lock rfl hc.mutex)
  have h₅ := h₄.tau (.stage .preprocess) (PreprocessStep.append rfl)
  have h₆ := h₅.tau (.stage .preprocess) (PreprocessStep.swap rfl hsize.ge)
  have h₇ := h₆.tau (.stage .preprocess) (PreprocessStep.unlock rfl)
  dsimp only at h₇
  have h₈ := h₇.tau (.stage .preprocess) (PreprocessStep.run rfl (by simp) hrun)
  rw [if_pos hok] at h₈
  have h₉ := h₈.onTensor (.stage .preprocess) (.push input) rfl (PreprocessStep.callPush rfl)
    (PreprocessStep.pushReturns rfl)
  have h₁₀ := h₉.leave rfl hc.inference hc.post rfl rfl rfl rfl rfl rfl
  have h₁₁ := h₁₀.stopWorkers rfl (fun k => by
    simp only [Core.left, hworker]
    rfl)
  obtain ⟨rawLog, tensorLog, resultLog, h⟩ := h₁₁
  refine ⟨_, h, rfl, rfl, rfl, ?_⟩
  rw [(accepted_eq h).1, (forming_of_reachable h).consumed]
  simp only [List.flatten_append, List.flatten_singleton, Core.left, PreprocessPc.sample,
    List.append_nil, List.append_assoc]
  rfl

/-- A run that loses a window: 128 samples are accepted, and the last of them is popped only after
`stop` has closed the queues. -/
theorem not_deliversAll_of_late :
  ∃ s : State Unit ℚ, (system Unit Params.small).Reachable s ∧ s.core.Stopped
    ∧ BlockingQueue.accepted s.raw_queue.log = defaultWindow ℚ
    ∧ s.core.callbacks = []
    ∧ ¬ DeliversAll Params.small s
  := by
  have hfill := quiet_started.fill (P := Params.small) (σ := Unit) ready_started ()
    (List.replicate 127 (RawSample.default ℚ)) (by rw [List.length_replicate]; decide)
  obtain ⟨s, h, hcontrol, hlife, hcallbacks, haccepted⟩ :=
    hfill.lose ⟨rfl, rfl, rfl, rfl, fun _ => rfl, rfl⟩ (fun _ => rfl) () (RawSample.default ℚ)
      (by rw [List.length_append, List.length_replicate]; rfl)
  have hwindow : BlockingQueue.accepted s.raw_queue.log = defaultWindow ℚ := by
    apply haccepted.trans
    exact List.replicate_succ'.symm
  use s, h, Core.stopped_of_lifecycle hcontrol hlife, hwindow, hcallbacks
  rintro ⟨hlen, -⟩
  rw [State.blocks, State.acceptedCount, hwindow, length_defaultWindow, hcallbacks] at hlen
  cases hlen

end Pipeline
