import PipeAI.Pipeline.Delivery
import PipeAI.Pipeline.Lifecycle

/-!
# Released threads

Once `close` has returned, no thread waits in the queue, and none ever waits again, since the
predicates of all operations of a closed queue hold.  Once `stop` has closed the three queues,
no worker is therefore blocked: its thread waits nowhere, and has a step to take until it has
ended (`enabled_of_freed`).
-/

namespace BlockingQueue

variable {T τ : Type}

/-! ### Closed queues -/

/-- No operation of a closed queue waits. -/
theorem ready_of_closed {q : BlockingQueue T} (h : q.closed = true) (op : Op T) :
  (monitor T).ready op q = true
  := by
  cases op with
  | close => rfl
  | pop => simp [monitor, popReady, h]
  | popFor => simp [monitor, popReady, h]
  | push value => simp [monitor, pushReady, h]
  | pushFor value => simp [monitor, pushReady, h]

/-- What a call of `pop` may return. -/
theorem eq_popped_of_returns {r : Ret T} (h : (monitor T).Returns .pop r) :
  ∃ value, r = .popped value
  := by
  obtain ⟨q, q', hc⟩ := h
  obtain ho := Outcome.of_commits hc
  cases ho with
  | accepts hop => cases hop
  | refuses hop => cases hop
  | takes hop hq => exact ⟨_, rfl⟩
  | findsNone hop hq hwhy => exact ⟨_, rfl⟩

/-- What a call of `push` may return. -/
theorem eq_pushed_of_returns {value : T} {r : Ret T} (h : (monitor T).Returns (.push value) r) :
  ∃ accepted, r = .pushed accepted
  := by
  obtain ⟨q, q', hc⟩ := h
  obtain ho := Outcome.of_commits hc
  cases ho with
  | accepts hop => exact ⟨_, rfl⟩
  | refuses hop => exact ⟨_, rfl⟩
  | takes hop => cases hop
  | findsNone hop => cases hop

/-- Only a call of `close` returns as `close` does. -/
theorem eq_close_of_returns {op : Op T} (h : (monitor T).Returns op .closed) :
  op = .close
  := by
  obtain ⟨q, q', hc⟩ := h
  obtain ho := Outcome.of_commits hc
  cases ho
  rfl

/-- Only `close` sends a signal to all waiters. -/
theorem eq_closed_of_all_mem {op : Op T} {r : Ret T} {c : Cond}
    (h : .all c ∈ (monitor T).signals op r) :
  r = .closed
  := by
  rcases r with (_ | _) | (_ | value) | _ <;> simp [monitor] at h ⊢

/-- The queue is closed, and no thread waits in it. -/
structure Released (s : State τ T) : Prop where
  closed : s.shared.closed = true
  awake : ∀ t, ¬ (s.phase t).Waits

variable [DecidableEq τ]

/-- The steps inside a released queue leave it released. -/
theorem Released.internal {s s' : State τ T} {t : τ} (h : Released s)
    (hs : (monitor T).Internal s t s') :
  Released s'
  := by
  constructor
  · apply (closed_internal h.closed hs).1
  · intro u hu
    obtain ⟨op, hu⟩ := hu
    by_cases hut : u = t
    · subst hut
      cases hs with
      | act hp hr =>
          rw [Monitor.State.commit_phase_self] at hu
          cases hu
      | block hp hr =>
          rw [ready_of_closed h.closed] at hr
          cases hr
      | giveUp hp hr ht =>
          rw [Monitor.State.commit_phase_self] at hu
          cases hu
      | expire hp ht => apply absurd ⟨_, hp⟩ (h.awake u)
      | wake hp => apply absurd ⟨_, hp⟩ (h.awake u)
      | notifyOne hp hv hc => apply absurd ⟨_, hv⟩ (h.awake _)
      | notifyNone hp hv =>
          rw [Monitor.State.setPhase_phase_self] at hu
          cases hu
      | notifyAll hp =>
          simp only [Monitor.State.setPhase_phase_self, Monitor.wakeAll] at hu
          cases hu
    · rw [hs.phase_of_ne hut (h.awake u)] at hu
      apply h.awake u ⟨op, hu⟩

/-- Calls and returns leave a released queue released. -/
theorem Released.run {s s' : State τ T} {t : τ} (h : Released s) {x : Access T}
    (hx : x.Run t s s') :
  Released s'
  := by
  constructor
  · rw [hx.same.1]
    apply h.closed
  · intro u
    by_cases hut : u = t
    · subst hut
      cases x with
      | none =>
          obtain rfl := hx
          apply h.awake
      | call op =>
          obtain ⟨-, rfl⟩ := hx
          rw [Monitor.State.call, Monitor.State.setPhase_phase_self]
          rintro ⟨op', hop⟩
          cases hop
      | ret r =>
          obtain ⟨-, rfl⟩ := hx
          rw [Monitor.State.ret, Monitor.State.setPhase_phase_self]
          rintro ⟨op', hop⟩
          cases hop
    · rw [hx.phase_of_ne hut]
      apply h.awake

/-- In a reachable state of a queue, a thread in a call of an operation that does not wait takes
a step, or returns. -/
theorem enabled_of_awake {q₀ : BlockingQueue T} {s : State τ T} {t : τ} {op : Op T}
    (h : ((monitor T).system τ q₀).Reachable s) (hw : ¬ (s.phase t).Waits)
    (hcall : (monitor T).InCall (some op) (s.phase t)) :
  (∃ s', (monitor T).Internal s t s')
    ∨ ∃ r, s.phase t = .leaving r [] ∧ (monitor T).Returns op r
  := by
  have hidle : s.phase t ≠ .idle := by
    intro hp
    rw [hp] at hcall
    obtain hv | ⟨r, hv, -⟩ := hcall <;> cases hv
  obtain hstep | ⟨r, hp⟩ := Monitor.exists_internal h hw hidle
  · left
    apply hstep
  · right
    obtain ⟨op', hop, hreturns⟩ := hcall.of_after (by rw [hp]; rfl)
    cases hop
    use r, hp

/-- A closed queue is released when no thread is in a call of `close`. -/
theorem released_of_closed {q₀ : BlockingQueue T} {s : State τ T}
    (h : ((monitor T).system τ q₀).Reachable s) {calls : τ → Option (Op T)}
    (hcalls : ∀ t, (monitor T).InCall (calls t) (s.phase t)) (hclose : ∀ t, calls t ≠ some .close)
    (hclosed : s.shared.closed = true) :
  Released s
  := by
  use hclosed
  rintro t ⟨op, hp⟩
  have hop : calls t = some op := (hcalls t).of_before (by rw [hp]; rfl)
  have hwaits : ∃ c, (monitor T).WaitsOn c (s.phase t) := by
    rw [hp]
    cases op with
    | close => apply absurd hop (hclose t)
    | _ => exact ⟨_, rfl⟩
  obtain ⟨c, hc⟩ := hwaits
  obtain ⟨u, hu⟩ := (supply T).releases_of_reachable h hclosed hc
  have hsends := Monitor.sends_of_reachable h u
  cases hq : s.phase u with
  | leaving r pending =>
      rw [hq] at hu hsends
      obtain ⟨op', hsuffix⟩ := hsends
      obtain rfl := eq_closed_of_all_mem (hsuffix.subset hu)
      obtain ⟨op'', hop'', hreturns⟩ := (hcalls u).of_after (by rw [hq]; rfl)
      obtain rfl := eq_close_of_returns hreturns
      apply hclose u hop''
  | _ =>
      rw [hq] at hu
      cases hu

end BlockingQueue

namespace Pipeline

variable {σ K : Type}

/-! ### Freed states -/

/-- The queues are closed, and no thread waits in them. -/
structure Freed (s : State σ K) : Prop where
  raw : BlockingQueue.Released s.raw_queue
  tensor : BlockingQueue.Released s.tensor_queue
  result : BlockingQueue.Released s.result_queue

/-- The thread waits in one of the queues. -/
def State.Waits (s : State σ K) (t : Thread σ) : Prop :=
  (s.raw_queue.phase t).Waits ∨ (s.tensor_queue.phase t).Waits ∨ (s.result_queue.phase t).Waits

theorem Freed.not_waits {s : State σ K} (h : Freed s) (t : Thread σ) :
  ¬ s.Waits t
  := by
  rintro (ht | ht | ht)
  · apply h.raw.awake t ht
  · apply h.tensor.awake t ht
  · apply h.result.awake t ht

variable [Field K] [LinearOrder K] [DecidableEq σ] {P : Params K}

/-- Every step from a freed state leads to one. -/
theorem Freed.step {s s' : State σ K} {t : Thread σ} (h : Freed s) (hstep : Step P s t s') :
  Freed s'
  := by
  obtain ⟨hraw, htensor, hresult⟩ := h
  obtain ⟨a, -, hr, ht, hq⟩ | ⟨-, ⟨hq, ht, hr⟩ | ⟨hq, ht, hr⟩ | ⟨hq, ht, hr⟩⟩ := hstep.cases
  · exact ⟨hraw.run hr, htensor.run ht, hresult.run hq⟩
  · rw [← ht] at htensor
    rw [← hr] at hresult
    exact ⟨hraw.internal hq, htensor, hresult⟩
  · rw [← ht] at hraw
    rw [← hr] at hresult
    exact ⟨hraw, htensor.internal hq, hresult⟩
  · rw [← ht] at hraw
    rw [← hr] at htensor
    exact ⟨hraw, htensor, hresult.internal hq⟩

/-- Once `stop` has closed the queues, the state is freed. -/
theorem freed_of_reachable {s : State σ K} (h : (system σ P).Reachable s)
    (hp : ∀ k, s.core.control.PastClose k) :
  Freed s
  := by
  have hclosed := (closing_of_reachable h).past
  have hsynced := synced_of_reachable h
  have hnot : ∀ k, s.core.control ≠ .closing k := by
    intro k hk
    have hpast := hp .post
    rw [hk] at hpast
    apply absurd k.index_le_post (Nat.not_le_of_lt hpast)
  constructor
  · apply BlockingQueue.released_of_closed ((rawProjection σ P).reachable h) hsynced.raw
    · intro t ht
      obtain ⟨-, -, hop⟩ | ⟨-, hc, -⟩ | ⟨i, sample, -, -, hop⟩ := Core.rawCall_cases ht
      · cases hop
      · apply hnot _ hc
      · cases hop
    · apply hclosed .preprocess (hp _)
  · apply BlockingQueue.released_of_closed ((tensorProjection σ P).reachable h) hsynced.tensor
    · intro t ht
      obtain ⟨input, -, -, hop⟩ | ⟨-, -, hop⟩ | ⟨-, hc, -⟩ := Core.tensorCall_cases ht
      · cases hop
      · cases hop
      · apply hnot _ hc
    · apply hclosed .inference (hp _)
  · apply BlockingQueue.released_of_closed ((resultProjection σ P).reachable h) hsynced.result
    · intro t ht
      obtain ⟨result, -, -, hop⟩ | ⟨-, -, hop⟩ | ⟨-, hc, -⟩ := Core.resultCall_cases ht
      · cases hop
      · cases hop
      · apply hnot _ hc
    · apply hclosed .post (hp _)

/-! ### Steps of the workers -/

/-- The handle of a worker holds a thread that has not ended. -/
def Alive (w : Worker) : Prop :=
  w.thread = some .test ∨ w.thread = some .loop

/-- The thread of a stage is blocked: it waits in a queue, or it has not ended and cannot take a
step. -/
def Blocked (P : Params K) (s : State σ K) (k : Stage) : Prop :=
  s.Waits (.stage k)
    ∨ Alive (s.core.worker k) ∧ ¬ (system σ P).Enabled (.stage k) s

/-- A thread outside of its loop that has not ended takes a step. -/
theorem enabled_of_test {s : State σ K} {k : Stage} (hk : ¬ s.core.InLoop k)
    (ht : (s.core.worker k).thread = some .test) :
  (system σ P).Enabled (.stage k) s
  := by
  cases hr : (s.core.worker k).running with
  | true =>
      cases k with
      | preprocess => exact ⟨_, .tau (PreprocessStep.enter (not_not.mp hk) ht hr)⟩
      | inference => exact ⟨_, .tau (InferenceStep.enter (not_not.mp hk) ht hr)⟩
      | post => exact ⟨_, .tau (PostStep.enter (not_not.mp hk) ht hr)⟩
  | false =>
      cases k with
      | preprocess => exact ⟨_, .tau (PreprocessStep.exit ht hr)⟩
      | inference => exact ⟨_, .tau (InferenceStep.exit ht hr)⟩
      | post => exact ⟨_, .tau (PostStep.exit ht hr)⟩

/-- In its loop, the thread of the first stage takes a step when it waits nowhere. -/
theorem preprocess_enabled {s : State σ K} (h : (system σ P).Reachable s)
    (hw : ¬ s.Waits (.stage .preprocess)) (hloop : s.core.InLoop .preprocess) :
  (system σ P).Enabled (.stage .preprocess) s
  := by
  have hsynced := synced_of_reachable h
  cases hp : s.core.preprocess with
  | outside => apply absurd hp hloop
  | pop =>
      have hidle := hsynced.raw (.stage .preprocess)
      rw [Core.rawCall, Core.calling, hp] at hidle
      exact ⟨_, .rawCall (PreprocessStep.callPop hp) hidle⟩
  | popping =>
      have hcall := hsynced.raw (.stage .preprocess)
      rw [Core.rawCall, Core.calling, hp] at hcall
      obtain ⟨q, hq⟩ | ⟨r, hphase, hreturns⟩ := BlockingQueue.enabled_of_awake
        ((rawProjection σ P).reachable h) (fun hwaits => hw (Or.inl hwaits)) hcall
      · exact ⟨_, .raw hq⟩
      · obtain ⟨value, rfl⟩ := BlockingQueue.eq_popped_of_returns hreturns
        cases value with
        | none => exact ⟨_, .rawReturn (PreprocessStep.popEnds hp) hphase⟩
        | some value => exact ⟨_, .rawReturn (PreprocessStep.popReturns hp) hphase⟩
  | item sample =>
      have hmutex := (forming_of_reachable h).mutex
      rw [hp] at hmutex
      exact ⟨_, .tau (PreprocessStep.lock hp hmutex)⟩
  | locked sample => exact ⟨_, .tau (PreprocessStep.append hp)⟩
  | appended =>
      obtain hlen | hlen := Nat.lt_or_ge s.core.window_buffer.length kTargetLength
      · exact ⟨_, .tau (PreprocessStep.noSwap hp hlen)⟩
      · exact ⟨_, .tau (PreprocessStep.swap hp hlen)⟩
  | swapped local_window => exact ⟨_, .tau (PreprocessStep.unlock hp)⟩
  | unlocked local_window =>
      by_cases hw : local_window = []
      · subst hw
        exact ⟨_, .tau (PreprocessStep.skip hp)⟩
      · obtain ⟨input, report, hrun⟩ := Preprocessor.run_isSome P.rounding hw
          (rfl : (PreprocessOptions.default K).sensor_min.isFinite = true) (ModelInput.zero K) none
        exact ⟨_, .tau (PreprocessStep.run hp hw hrun)⟩
  | push input =>
      have hidle := hsynced.tensor (.stage .preprocess)
      rw [Core.tensorCall, Core.calling, hp] at hidle
      exact ⟨_, .tensorCall (PreprocessStep.callPush hp) hidle⟩
  | pushing input =>
      have hcall := hsynced.tensor (.stage .preprocess)
      rw [Core.tensorCall, Core.calling, hp] at hcall
      obtain ⟨q, hq⟩ | ⟨r, hphase, hreturns⟩ := BlockingQueue.enabled_of_awake
        ((tensorProjection σ P).reachable h) (fun hwaits => hw (Or.inr (Or.inl hwaits))) hcall
      · exact ⟨_, .tensor hq⟩
      · obtain ⟨accepted, rfl⟩ := BlockingQueue.eq_pushed_of_returns hreturns
        exact ⟨_, .tensorReturn (PreprocessStep.pushReturns hp) hphase⟩

/-- In its loop, the thread of the second stage takes a step when it waits nowhere. -/
theorem inference_enabled {s : State σ K} (h : (system σ P).Reachable s)
    (hw : ¬ s.Waits (.stage .inference)) (hloop : s.core.InLoop .inference) :
  (system σ P).Enabled (.stage .inference) s
  := by
  have hsynced := synced_of_reachable h
  cases hp : s.core.inference with
  | outside => apply absurd hp hloop
  | pop =>
      have hidle := hsynced.tensor (.stage .inference)
      rw [Core.tensorCall, Core.calling, hp] at hidle
      exact ⟨_, .tensorCall (InferenceStep.callPop hp) hidle⟩
  | popping =>
      have hcall := hsynced.tensor (.stage .inference)
      rw [Core.tensorCall, Core.calling, hp] at hcall
      obtain ⟨q, hq⟩ | ⟨r, hphase, hreturns⟩ := BlockingQueue.enabled_of_awake
        ((tensorProjection σ P).reachable h) (fun hwaits => hw (Or.inr (Or.inl hwaits))) hcall
      · exact ⟨_, .tensor hq⟩
      · obtain ⟨value, rfl⟩ := BlockingQueue.eq_popped_of_returns hreturns
        cases value with
        | none => exact ⟨_, .tensorReturn (InferenceStep.popEnds hp) hphase⟩
        | some value => exact ⟨_, .tensorReturn (InferenceStep.popReturns hp) hphase⟩
  | item input => exact ⟨_, .tau (InferenceStep.infer hp ⟨false, .success, []⟩)⟩
  | push result =>
      have hidle := hsynced.result (.stage .inference)
      rw [Core.resultCall, Core.calling, hp] at hidle
      exact ⟨_, .resultCall (InferenceStep.callPush hp) hidle⟩
  | pushing result =>
      have hcall := hsynced.result (.stage .inference)
      rw [Core.resultCall, Core.calling, hp] at hcall
      obtain ⟨q, hq⟩ | ⟨r, hphase, hreturns⟩ := BlockingQueue.enabled_of_awake
        ((resultProjection σ P).reachable h) (fun hwaits => hw (Or.inr (Or.inr hwaits))) hcall
      · exact ⟨_, .result hq⟩
      · obtain ⟨accepted, rfl⟩ := BlockingQueue.eq_pushed_of_returns hreturns
        exact ⟨_, .resultReturn (InferenceStep.pushReturns hp) hphase⟩

/-- In its loop, the thread of the third stage takes a step when it waits nowhere. -/
theorem post_enabled {s : State σ K} (h : (system σ P).Reachable s)
    (hw : ¬ s.Waits (.stage .post)) (hloop : s.core.InLoop .post) :
  (system σ P).Enabled (.stage .post) s
  := by
  have hsynced := synced_of_reachable h
  cases hp : s.core.post with
  | outside => apply absurd hp hloop
  | pop =>
      have hidle := hsynced.result (.stage .post)
      rw [Core.resultCall, Core.calling, hp] at hidle
      exact ⟨_, .resultCall (PostStep.callPop hp) hidle⟩
  | popping =>
      have hcall := hsynced.result (.stage .post)
      rw [Core.resultCall, Core.calling, hp] at hcall
      obtain ⟨q, hq⟩ | ⟨r, hphase, hreturns⟩ := BlockingQueue.enabled_of_awake
        ((resultProjection σ P).reachable h) (fun hwaits => hw (Or.inr (Or.inr hwaits))) hcall
      · exact ⟨_, .result hq⟩
      · obtain ⟨value, rfl⟩ := BlockingQueue.eq_popped_of_returns hreturns
        cases value with
        | none => exact ⟨_, .resultReturn (PostStep.popEnds hp) hphase⟩
        | some value => exact ⟨_, .resultReturn (PostStep.popReturns hp) hphase⟩
  | item result => exact ⟨_, .tau (PostStep.callback hp)⟩

/-- The thread of a worker that waits nowhere takes a step until it has ended. -/
theorem enabled_of_awake {s : State σ K} (h : (system σ P).Reachable s) {k : Stage}
    (hw : ¬ s.Waits (.stage k)) (hk : Alive (s.core.worker k)) :
  (system σ P).Enabled (.stage k) s
  := by
  have hatt := attached_of_reachable h k
  obtain ht | ht := hk
  · apply enabled_of_test _ ht
    rw [← hatt, ht]
    nofun
  · have hloop := hatt.mp ht
    cases k with
    | preprocess => apply preprocess_enabled h hw hloop
    | inference => apply inference_enabled h hw hloop
    | post => apply post_enabled h hw hloop

/-- From a freed state, the thread of a worker takes a step until it has ended. -/
theorem enabled_of_freed {s : State σ K} (h : (system σ P).Reachable s) (hf : Freed s) {k : Stage}
    (hk : Alive (s.core.worker k)) :
  (system σ P).Enabled (.stage k) s
  := enabled_of_awake h (hf.not_waits _) hk

/-- From a freed state, no worker is blocked after any run. -/
theorem Freed.not_blocked {s s' : State σ K} (h : (system σ P).Reachable s) (hf : Freed s)
    {ls : List (Thread σ)} (hr : (system σ P).Run s ls s') (k : Stage) :
  ¬ Blocked P s' k
  := by
  have hf' : Freed s' := hr.invariant (fun _ _ _ hs hstep => hs.step hstep) hf
  rintro (hw | ⟨halive, hnot⟩)
  · apply hf'.not_waits _ hw
  · apply hnot (enabled_of_freed (h.run hr) hf' halive)

end Pipeline
