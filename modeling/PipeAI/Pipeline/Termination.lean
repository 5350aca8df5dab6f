import PipeAI.Pipeline.Release
import Mathlib.Data.Prod.Lex
import Mathlib.Order.WellFounded

/-!
# Termination of `stop`

Once `stop` has cleared the flag of a worker, every step of its thread brings it closer to its
end: it drains its input queue, to which no more values come, and has only so much to do for
each of them (`Freed.remaining_lt`).  The steps of the other threads keep no worker from
ending (`Freed.remaining_le`).  Hence the thread of a worker ends after a number of its own steps
that is linear in the length of its input queue, and `stop` returns (`stop_cannot_hang`).
-/

namespace BlockingQueue

variable {T τ : Type}

/-! ### Work in a queue -/

/-- A bound on the steps a thread still takes inside of the queue. -/
def work : Monitor.Phase Cond (Op T) (Ret T) → ℕ
  | .idle => 0
  | .entering _ => 4
  | .waiting _ => 4
  | .woken _ _ => 4
  | .leaving _ pending => pending.length + 1

/-- What the consumer of a queue has to do for the values in the queue and the one it has in
hand. -/
def load (s : State τ T) (t : τ) : ℕ :=
  32 * s.shared.queue.length + 30 * (inHand (s.phase t).view).length

theorem length_signals_le (op : Op T) (r : Ret T) :
  ((monitor T).signals op r).length ≤ 2
  := by
  rcases r with (_ | _) | (_ | value) | _ <;> simp [monitor]

/-- An effect on a closed queue adds nothing to what its consumer has to do. -/
theorem Outcome.load_le {q q' : BlockingQueue T} {op : Op T} {r : Ret T} (h : Outcome q op r q')
    (hclosed : q.closed = true) :
  32 * q'.queue.length + 30 * (takenValue r).toList.length ≤ 32 * q.queue.length
    ∧ q'.queue.length ≤ q.queue.length
  := by
  cases h with
  | accepts hop hopen hroom =>
      rw [hclosed] at hopen
      cases hopen
  | takes hop hq =>
      simp [takenValue, hq]
      omega
  | _ => simp [takenValue]

variable [DecidableEq τ]

/-- A thread that takes a step inside of a released queue has less to do. -/
theorem Released.work_lt {s s' : State τ T} {t : τ} (h : Released s)
    (hs : (monitor T).Internal s t s') :
  load s' t ≤ load s t ∧ work (s'.phase t) < work (s.phase t)
  := by
  cases hs with
  | @act op hp hr =>
      have ho : Outcome s.shared op ((monitor T).body op s.shared).1
          ((monitor T).body op s.shared).2 := Outcome.of_commits (Or.inl ⟨hr, rfl⟩)
      have hload := (ho.load_le h.closed).1
      have hsignals := length_signals_le op ((monitor T).body op s.shared).1
      have hview : (s.phase t).view = .before op := by
        obtain hp | ⟨b, hp⟩ := hp <;> rw [hp] <;> rfl
      have hwork : work (s.phase t) = 4 := by
        obtain hp | ⟨b, hp⟩ := hp <;> rw [hp] <;> rfl
      rw [load, load, hview, hwork, Monitor.State.commit_phase_self, Monitor.State.commit_shared,
        Monitor.Phase.view_leaving, inHand_after, inHand_before, work, List.length_nil]
      omega
  | block hp hr =>
      rw [ready_of_closed h.closed] at hr
      cases hr
  | giveUp hp hr ht =>
      rw [ready_of_closed h.closed] at hr
      cases hr
  | expire hp ht => apply absurd ⟨_, hp⟩ (h.awake t)
  | wake hp => apply absurd ⟨_, hp⟩ (h.awake t)
  | notifyOne hp hu hc => apply absurd ⟨_, hu⟩ (h.awake _)
  | notifyNone hp hu =>
      rw [load, load, hp, Monitor.State.setPhase_phase_self, work, work, List.length_cons]
      exact ⟨le_rfl, by omega⟩
  | @notifyAll c r pending hp =>
      have hphase : (monitor T).wakeAll c ((s.setPhase t (.leaving r pending)).phase t)
          = .leaving r pending := by
        rw [Monitor.State.setPhase_phase_self]
        rfl
      simp only [load, hphase, hp, work, List.length_cons]
      exact ⟨le_rfl, by omega⟩

/-- The steps of the other threads inside of a released queue do not give a thread more to do. -/
theorem Released.work_of_ne {s s' : State τ T} {t u : τ} (h : Released s)
    (hs : (monitor T).Internal s t s') (hu : u ≠ t) :
  load s' u ≤ load s u ∧ work (s'.phase u) = work (s.phase u)
  := by
  rw [load, load, hs.phase_of_ne hu (h.awake u)]
  refine ⟨?_, rfl⟩
  obtain hs | ⟨op, r, hs⟩ := hs.cases
  · rw [hs.shared]
  · have hle := ((Outcome.of_commits hs.commits).load_le h.closed).2
    omega

theorem work_of_before {p : Monitor.Phase Cond (Op T) (Ret T)} {op : Op T}
    (h : p.view = .before op) :
  work p = 4
  := by
  cases p with
  | idle => cases h
  | leaving r pending => cases h
  | _ => rfl

theorem work_of_after {p : Monitor.Phase Cond (Op T) (Ret T)} {r : Ret T} (h : p.view = .after r)
    (hsends : (monitor T).Sends p) :
  work p ≤ 3
  := by
  obtain ⟨pending, rfl⟩ := Monitor.Phase.eq_leaving_of_view h
  obtain ⟨op, hop⟩ := hsends
  have hle := hop.length_le.trans (length_signals_le op r)
  rw [work]
  omega

/-! ### Calls and returns -/

/-- The work that an access begins. -/
@[simp]
def Access.began : Access T → ℕ
  | .call _ => 4
  | _ => 0

/-- The work that an access ends. -/
@[simp]
def Access.ended : Access T → ℕ
  | .ret _ => 1
  | _ => 0

/-- The part of the load that an access returns with. -/
@[simp]
def Access.received : Access T → ℕ
  | .ret r => 30 * (takenValue r).toList.length
  | _ => 0

/-- What an access does to the work of its thread. -/
theorem Access.Run.work_self {s s' : State τ T} {t : τ} {x : Access T} (hx : x.Run t s s') :
  load s' t + x.received = load s t
    ∧ work (s'.phase t) + x.ended = work (s.phase t) + x.began
  := by
  cases x with
  | none =>
      obtain rfl := hx
      exact ⟨rfl, rfl⟩
  | call op =>
      obtain ⟨hp, rfl⟩ := hx
      rw [load, load, Monitor.State.call, Monitor.State.setPhase_phase_self, hp]
      exact ⟨rfl, rfl⟩
  | ret r =>
      obtain ⟨hp, rfl⟩ := hx
      rw [load, load, Monitor.State.ret, Monitor.State.setPhase_phase_self, hp]
      exact ⟨rfl, rfl⟩

/-- An access of another thread does nothing to the work of a thread. -/
theorem Access.Run.work_of_ne {s s' : State τ T} {t u : τ} {x : Access T} (hx : x.Run t s s')
    (hu : u ≠ t) :
  load s' u = load s u ∧ work (s'.phase u) = work (s.phase u)
  := by
  rw [load, load, hx.phase_of_ne hu, hx.same.1]
  exact ⟨rfl, rfl⟩

omit [DecidableEq τ] in
/-- A bound on the work of a thread in a call. -/
theorem work_le {s : State τ T} {t : τ} {o : Option (Op T)}
    (hcall : (monitor T).InCall o (s.phase t)) (hsends : (monitor T).Sends (s.phase t)) :
  (o = none → load s t = 32 * s.shared.queue.length ∧ work (s.phase t) = 0)
    ∧ (o = some .pop → load s t + work (s.phase t) ≤ 32 * s.shared.queue.length + 33)
    ∧ (∀ value, o = some (.push value) →
      load s t = 32 * s.shared.queue.length ∧ work (s.phase t) ≤ 4)
  := by
  refine ⟨?_, ?_, ?_⟩
  · rintro rfl
    have hp : s.phase t = .idle := hcall
    rw [load, hp]
    exact ⟨rfl, rfl⟩
  · rintro rfl
    rw [load]
    obtain hv | ⟨r, hv, hreturns⟩ := hcall
    · rw [work_of_before hv, hv]
      simp
    · have hwork := work_of_after hv hsends
      obtain ⟨value, rfl⟩ := eq_popped_of_returns hreturns
      have hhand : (inHand (s.phase t).view).length ≤ 1 := by
        rw [hv]
        cases value <;> simp [takenValue]
      omega
  · rintro value rfl
    rw [load]
    obtain hv | ⟨r, hv, hreturns⟩ := hcall
    · rw [work_of_before hv, hv]
      simp
    · have hwork := work_of_after hv hsends
      obtain ⟨accepted, rfl⟩ := eq_pushed_of_returns hreturns
      rw [hv]
      exact ⟨rfl, by omega⟩

end BlockingQueue

namespace Pipeline

variable {σ K : Type}

/-! ### What a worker has to do -/

/-- The steps the first stage takes outside of the queues from a program counter to the next call
of `pop`, or to its end. -/
@[simp]
def PreprocessPc.weight : PreprocessPc K → ℕ
  | .outside => 1
  | .pop => 10
  | .popping => 2
  | .item _ => 32
  | .locked _ => 31
  | .appended => 30
  | .swapped _ => 29
  | .unlocked _ => 28
  | .push _ => 27
  | .pushing _ => 12

/-- The same for the second stage. -/
@[simp]
def InferencePc.weight : InferencePc K → ℕ
  | .outside => 1
  | .pop => 10
  | .popping => 2
  | .item _ => 32
  | .push _ => 27
  | .pushing _ => 12

/-- The same for the third stage. -/
@[simp]
def PostPc.weight : PostPc K → ℕ
  | .outside => 1
  | .pop => 10
  | .popping => 2
  | .item _ => 32

/-- The same for a stage. -/
@[simp]
def Core.weight (c : Core σ K) : Stage → ℕ
  | .preprocess => c.preprocess.weight
  | .inference => c.inference.weight
  | .post => c.post.weight

/-- The number of items left in the input queue of a stage. -/
def State.inputLength (s : State σ K) : Stage → ℕ
  | .preprocess => s.raw_queue.shared.queue.length
  | .inference => s.tensor_queue.shared.queue.length
  | .post => s.result_queue.shared.queue.length

/-- What a stage has to do for its input. -/
def State.load (s : State σ K) : Stage → ℕ
  | .preprocess => BlockingQueue.load s.raw_queue (.stage .preprocess)
  | .inference => BlockingQueue.load s.tensor_queue (.stage .inference)
  | .post => BlockingQueue.load s.result_queue (.stage .post)

/-- What a thread has to do inside of the queues. -/
def State.work (s : State σ K) (t : Thread σ) : ℕ :=
  BlockingQueue.work (s.raw_queue.phase t) + BlockingQueue.work (s.tensor_queue.phase t)
    + BlockingQueue.work (s.result_queue.phase t)

/-- What the thread of a stage has to do until it ends, once its flag has been cleared and the
queues are closed. -/
def State.remaining (s : State σ K) (k : Stage) : ℕ :=
  s.load k + s.core.weight k + s.work (.stage k)

theorem State.remaining_pos (s : State σ K) (k : Stage) :
  0 < s.remaining k
  := by
  have hweight : 0 < s.core.weight k := by
    cases k with
    | preprocess => cases hp : s.core.preprocess <;> simp [Core.weight, PreprocessPc.weight, hp]
    | inference => cases hp : s.core.inference <;> simp [Core.weight, InferencePc.weight, hp]
    | post => cases hp : s.core.post <;> simp [Core.weight, PostPc.weight, hp]
  rw [State.remaining]
  omega

variable [Field K] [LinearOrder K] [DecidableEq σ] {P : Params K}

/-- What a stage has to do is linear in the length of its input queue. -/
theorem remaining_le {s : State σ K} (h : (system σ P).Reachable s) (k : Stage) :
  s.remaining k ≤ 32 * s.inputLength k + 35
  := by
  have hsynced := synced_of_reachable h
  have hraw := BlockingQueue.work_le (hsynced.raw (.stage k))
    (Monitor.sends_of_reachable ((rawProjection σ P).reachable h) _)
  have htensor := BlockingQueue.work_le (hsynced.tensor (.stage k))
    (Monitor.sends_of_reachable ((tensorProjection σ P).reachable h) _)
  have hresult := BlockingQueue.work_le (hsynced.result (.stage k))
    (Monitor.sends_of_reachable ((resultProjection σ P).reachable h) _)
  simp only [Core.rawCall, Core.tensorCall, Core.resultCall, Core.calling] at hraw htensor hresult
  cases k with
  | preprocess =>
      simp only [State.remaining, State.load, State.work, Core.weight, State.inputLength]
      cases hp : s.core.preprocess with
      | popping =>
          rw [hp] at hraw htensor hresult
          have h₁ := hraw.2.1 rfl
          have h₂ := htensor.1 rfl
          have h₃ := hresult.1 rfl
          simp only [PreprocessPc.weight]
          omega
      | pushing input =>
          rw [hp] at hraw htensor hresult
          have h₁ := hraw.1 rfl
          have h₂ := htensor.2.2 input rfl
          have h₃ := hresult.1 rfl
          simp only [PreprocessPc.weight]
          omega
      | _ =>
          rw [hp] at hraw htensor hresult
          have h₁ := hraw.1 rfl
          have h₂ := htensor.1 rfl
          have h₃ := hresult.1 rfl
          simp only [PreprocessPc.weight]
          omega
  | inference =>
      simp only [State.remaining, State.load, State.work, Core.weight, State.inputLength]
      cases hp : s.core.inference with
      | popping =>
          rw [hp] at hraw htensor hresult
          have h₁ := hraw.1 rfl
          have h₂ := htensor.2.1 rfl
          have h₃ := hresult.1 rfl
          simp only [InferencePc.weight]
          omega
      | pushing result =>
          rw [hp] at hraw htensor hresult
          have h₁ := hraw.1 rfl
          have h₂ := htensor.1 rfl
          have h₃ := hresult.2.2 result rfl
          simp only [InferencePc.weight]
          omega
      | _ =>
          rw [hp] at hraw htensor hresult
          have h₁ := hraw.1 rfl
          have h₂ := htensor.1 rfl
          have h₃ := hresult.1 rfl
          simp only [InferencePc.weight]
          omega
  | post =>
      simp only [State.remaining, State.load, State.work, Core.weight, State.inputLength]
      cases hp : s.core.post with
      | popping =>
          rw [hp] at hraw htensor hresult
          have h₁ := hraw.1 rfl
          have h₂ := htensor.1 rfl
          have h₃ := hresult.2.1 rfl
          simp only [PostPc.weight]
          omega
      | _ =>
          rw [hp] at hraw htensor hresult
          have h₁ := hraw.1 rfl
          have h₂ := htensor.1 rfl
          have h₃ := hresult.1 rfl
          simp only [PostPc.weight]
          omega

/-- The work that an action begins. -/
@[simp]
def Action.began (a : Action K) : ℕ :=
  a.raw.began + a.tensor.began + a.result.began

/-- The work that an action ends. -/
@[simp]
def Action.ended (a : Action K) : ℕ :=
  a.raw.ended + a.tensor.ended + a.result.ended

/-- The part of the load of a stage that an action returns with. -/
@[simp]
def Action.received (a : Action K) : Stage → ℕ
  | .preprocess => a.raw.received
  | .inference => a.tensor.received
  | .post => a.result.received

/-- Once its flag has been cleared, the thread of a stage ends with a step of the core, or has less
to do after it. -/
theorem CoreStep.weight_lt {c c' : Core σ K} {a : Action K} {k : Stage}
    (h : CoreStep P c (.stage k) a c') (hr : (c.worker k).running = false) :
  (c'.worker k).thread = some .exited
    ∨ c'.weight k + a.began < c.weight k + a.ended + a.received k
  := by
  cases k with
  | preprocess =>
      cases h with
      | enter hp ht hr' => cases hr.symm.trans hr'
      | exit ht hr' => simp [Core.setWorker, Worker.test, hr]
      | run hp hw hrun =>
          right
          simp only [Core.weight, hp]
          split <;> simp [Action.raw, Action.tensor, Action.result]
      | _ hp => simp [hp, Action.raw, Action.tensor, Action.result, BlockingQueue.takenValue]
  | inference =>
      cases h with
      | enter hp ht hr' => cases hr.symm.trans hr'
      | exit ht hr' => simp [Core.setWorker, Worker.test, hr]
      | _ hp => simp [hp, Action.raw, Action.tensor, Action.result, BlockingQueue.takenValue]
  | post =>
      cases h with
      | enter hp ht hr' => cases hr.symm.trans hr'
      | exit ht hr' => simp [Core.setWorker, Worker.test, hr]
      | _ hp => simp [hp, Action.raw, Action.tensor, Action.result, BlockingQueue.takenValue]

/-- Once the queues are closed and its flag has been cleared, the thread of a worker ends with its
next step, or has less to do after it. -/
theorem Freed.remaining_lt {s s' : State σ K} {k : Stage} (hf : Freed s)
    (hstep : Step P s (.stage k) s') (hr : (s.core.worker k).running = false) :
  (s'.core.worker k).thread = some .exited ∨ s'.remaining k < s.remaining k
  := by
  obtain ⟨a, hc, hraw, htensor, hresult⟩ | ⟨hcore, hq⟩ := hstep.cases
  · obtain hexited | hweight := hc.weight_lt hr
    · left
      apply hexited
    · right
      obtain ⟨hload₁, hwork₁⟩ := hraw.work_self
      obtain ⟨hload₂, hwork₂⟩ := htensor.work_self
      obtain ⟨hload₃, hwork₃⟩ := hresult.work_self
      simp only [State.remaining, State.work]
      rw [Action.began, Action.ended] at hweight
      cases k <;> simp only [State.load, Action.received] at hweight ⊢ <;> omega
  · right
    simp only [State.remaining, State.work, hcore]
    obtain ⟨hq, htensor, hresult⟩ | ⟨hq, hraw, hresult⟩ | ⟨hq, hraw, htensor⟩ := hq
    · obtain ⟨hload, hwork⟩ := hf.raw.work_lt hq
      rw [htensor, hresult]
      cases k <;> simp only [State.load, htensor, hresult] <;> omega
    · obtain ⟨hload, hwork⟩ := hf.tensor.work_lt hq
      rw [hraw, hresult]
      cases k <;> simp only [State.load, hraw, hresult] <;> omega
    · obtain ⟨hload, hwork⟩ := hf.result.work_lt hq
      rw [hraw, htensor]
      cases k <;> simp only [State.load, hraw, htensor] <;> omega

/-- Once the queues are closed, the steps of other threads do not give a worker more to do. -/
theorem Freed.remaining_le {s s' : State σ K} {t : Thread σ} {k : Stage} (hf : Freed s)
    (hstep : Step P s t s') (ht : t ≠ .stage k) :
  s'.remaining k ≤ s.remaining k
  := by
  have hne : Thread.stage k ≠ t := ht.symm
  obtain ⟨a, hc, hraw, htensor, hresult⟩ | ⟨hcore, hq⟩ := hstep.cases
  · obtain ⟨hload₁, hwork₁⟩ := hraw.work_of_ne hne
    obtain ⟨hload₂, hwork₂⟩ := htensor.work_of_ne hne
    obtain ⟨hload₃, hwork₃⟩ := hresult.work_of_ne hne
    simp only [State.remaining, State.work]
    cases k with
    | preprocess => simp only [State.load, Core.weight, (hc.forming ht).1]; omega
    | inference => simp only [State.load, Core.weight, (hc.inferring ht).1]; omega
    | post => simp only [State.load, Core.weight, (hc.posting ht).1]; omega
  · simp only [State.remaining, State.work, hcore]
    obtain ⟨hq, htensor, hresult⟩ | ⟨hq, hraw, hresult⟩ | ⟨hq, hraw, htensor⟩ := hq
    · obtain ⟨hload, hwork⟩ := hf.raw.work_of_ne hq hne
      rw [htensor, hresult]
      cases k <;> simp only [State.load, htensor, hresult] <;> omega
    · obtain ⟨hload, hwork⟩ := hf.tensor.work_of_ne hq hne
      rw [hraw, hresult]
      cases k <;> simp only [State.load, hraw, hresult] <;> omega
    · obtain ⟨hload, hwork⟩ := hf.result.work_of_ne hq hne
      rw [hraw, htensor]
      cases k <;> simp only [State.load, hraw, htensor] <;> omega

/-! ### The end of a worker -/

/-- `stop` has cleared the flag of a worker, whose thread has not ended, in a reachable state. -/
structure Winding (P : Params K) (k : Stage) (s : State σ K) : Prop where
  reachable : (system σ P).Reachable s
  running : (s.core.worker k).running = false
  alive : Alive (s.core.worker k)

omit [Field K] [LinearOrder K] [DecidableEq σ] in
/-- Where a call has taken the flag of a worker. -/
theorem ControlPc.cases_of_holds {p : ControlPc} {k : Stage} (h : (p.callPc k).Holds) :
  (∃ ok, p = .assigning k ok) ∨ p = .testing k ∨ p = .joining k
  := by
  cases p with
  | starting k' ok =>
      rw [callPc] at h
      split at h <;> cases h
  | stopping k' =>
      rw [callPc] at h
      split at h <;> cases h
  | assigning k' ok =>
      by_cases hk : k' = k
      · subst hk
        exact Or.inl ⟨ok, rfl⟩
      · rw [callPc, if_neg hk] at h
        cases h
  | testing k' =>
      by_cases hk : k' = k
      · subst hk
        exact Or.inr (Or.inl rfl)
      · rw [callPc, if_neg hk] at h
        cases h
  | joining k' =>
      by_cases hk : k' = k
      · subst hk
        exact Or.inr (Or.inr rfl)
      · rw [callPc, if_neg hk] at h
        cases h
  | _ => cases h

/-- While a thread has not ended though its flag has been cleared, `stop` is about to join it. -/
theorem Winding.control {s : State σ K} {k : Stage} (h : Winding P k s) :
  s.core.control = .testing k ∨ s.core.control = .joining k
  := by
  obtain ⟨hagrees, hfree⟩ := managed_of_reachable h.reachable k
  have hholds : (s.core.control.callPc k).Holds := by
    by_contra hnot
    have hnone := hfree hnot
    rw [h.running] at hnone
    obtain ht | ht := h.alive <;> rw [ht] at hnone <;> cases hnone
  obtain ⟨ok, hp⟩ | hp := ControlPc.cases_of_holds hholds
  · rw [hp, ControlPc.callPc, if_pos rfl, Worker.Agrees, h.running] at hagrees
    cases hagrees.1
  · apply hp

/-- A state where a thread winds up is freed. -/
theorem Winding.freed {s : State σ K} {k : Stage} (h : Winding P k s) :
  Freed s
  := by
  apply freed_of_reachable h.reachable
  obtain hp | hp := h.control <;> rw [hp] <;> intro <;> trivial

omit [Field K] [LinearOrder K] [DecidableEq σ] in
/-- With a step of its own after its flag has been cleared, a thread ends, or has not ended yet. -/
theorem Core.LoopStep.winding {c c' : Core σ K} {k : Stage} (h : c.LoopStep k c')
    (halive : Alive (c.worker k)) (hr : (c.worker k).running = false) :
  (c'.worker k).thread = some .exited
    ∨ (c'.worker k).running = false ∧ Alive (c'.worker k)
  := by
  cases h with
  | inside hw hc hc' =>
      right
      rw [hw]
      exact ⟨hr, halive⟩
  | enter ht hr' hw hc' => cases hr.symm.trans hr'
  | exit ht hr' hw hc' =>
      left
      rw [hw, Function.update_self, Worker.test, hr]
      rfl
  | leave hw hc hc' =>
      right
      rw [hw, Function.update_self]
      exact ⟨hr, Or.inl rfl⟩

/-- The steps of other threads leave the worker whose thread winds up. -/
theorem Winding.worker {s s' : State σ K} {t : Thread σ} {k : Stage} (h : Winding P k s)
    (hstep : Step P s t s') (ht : t ≠ .stage k) :
  s'.core.worker k = s.core.worker k
  := by
  have hthread : (s.core.worker k).thread ≠ none ∧ (s.core.worker k).thread ≠ some .exited := by
    obtain ht | ht := h.alive <;> rw [ht] <;> exact ⟨nofun, nofun⟩
  obtain ⟨a, hc, -⟩ | ⟨hcore, -⟩ := hstep.cases
  · by_cases hcontrol : t = .control
    · subst hcontrol
      have hp := h.control
      generalize s'.core = c' at hc
      cases hc with
      | notJoinable hp' hj => rfl
      | joinable hp' hj => rfl
      | @join k' hp' hx =>
          obtain rfl : k' = k := by
            rw [hp'] at hp
            obtain hp | hp := hp <;> cases hp
            rfl
          apply absurd hx hthread.2
      | _ hp' => simp [hp'] at hp
    · apply hc.worker ht hcontrol
  · rw [hcore]

/-- With a step, the thread that winds up ends, or it still does, and has no more to do, and less
if the step is its own. -/
theorem Winding.step {s s' : State σ K} {t : Thread σ} {k : Stage} (h : Winding P k s)
    (hstep : Step P s t s') :
  (s'.core.worker k).thread = some .exited
    ∨ Winding P k s' ∧ s'.remaining k ≤ s.remaining k
      ∧ (t = .stage k → s'.remaining k < s.remaining k)
  := by
  by_cases ht : t = .stage k
  · subst ht
    obtain hexited | hlt := h.freed.remaining_lt hstep h.running
    · left
      apply hexited
    · have hwinding : (s'.core.worker k).thread = some .exited
          ∨ (s'.core.worker k).running = false ∧ Alive (s'.core.worker k) := by
        obtain ⟨a, hc, -⟩ | ⟨hcore, -⟩ := hstep.cases
        · apply hc.loopStep.winding h.alive h.running
        · right
          rw [hcore]
          exact ⟨h.running, h.alive⟩
      obtain hexited | ⟨hr, halive⟩ := hwinding
      · left
        apply hexited
      · right
        exact ⟨⟨h.reachable.step hstep, hr, halive⟩, hlt.le, fun _ => hlt⟩
  · right
    have hw := h.worker hstep ht
    refine ⟨⟨h.reachable.step hstep, ?_, ?_⟩, h.freed.remaining_le hstep ht, fun hk => absurd hk ht⟩
    · rw [hw, h.running]
    · rw [hw]
      apply h.alive

/-! ### The return of `stop` -/

/-- How far `stop` is from its return once it has closed the queues. -/
def ControlPc.rank : ControlPc → ℕ
  | .stopping k => 9 - 3 * k.index
  | .testing k => 8 - 3 * k.index
  | .joining k => 7 - 3 * k.index
  | _ => 0

/-- What `stop` waits for: what the worker that it joins has to do. -/
def State.awaited (s : State σ K) : ℕ :=
  match s.core.control with
  | .joining k => if (s.core.worker k).thread = some .exited then 0 else s.remaining k
  | _ => 0

/-- The thread whose steps bring `stop` closer to its return. -/
def State.helpful (s : State σ K) : Thread σ :=
  match s.core.control with
  | .joining k => if (s.core.worker k).thread = some .exited then .control else .stage k
  | _ => .control

/-- `stop` is past its calls of `close`, with the returns so far, in a reachable state. -/
structure Stopping (P : Params K) (lifecycle : List Event) (s : State σ K) : Prop where
  reachable : (system σ P).Reachable s
  past : ∀ k, s.core.control.PastClose k
  lifecycle : s.core.lifecycle = lifecycle

omit [Field K] [LinearOrder K] [DecidableEq σ] in
/-- `stop` is past its calls of `close` while it is at work with a worker. -/
theorem ControlPc.cases_of_pastClose {p : ControlPc} (h : ∀ k, p.PastClose k) :
  ∃ k, p = .stopping k ∨ p = .testing k ∨ p = .joining k
  := by
  cases p with
  | stopping k => exact ⟨k, Or.inl rfl⟩
  | testing k => exact ⟨k, Or.inr (Or.inl rfl)⟩
  | joining k => exact ⟨k, Or.inr (Or.inr rfl)⟩
  | close k => apply absurd k.index_le_post (Nat.not_le_of_lt (h .post))
  | closing k => apply absurd k.index_le_post (Nat.not_le_of_lt (h .post))
  | _ => cases h .post

omit [Field K] [LinearOrder K] [DecidableEq σ] in
/-- `stop` goes on to the next worker, or returns. -/
theorem Core.nextStop_cases (c : Core σ K) (k : Stage) :
  ((c.nextStop k).control = .idle ∧ (c.nextStop k).lifecycle = c.lifecycle ++ [.stopped])
    ∨ (c.nextStop k).lifecycle = c.lifecycle ∧ (∀ k', (c.nextStop k).control.PastClose k')
      ∧ (c.nextStop k).control.rank < ControlPc.rank (.joining k)
  := by
  cases k with
  | post => exact Or.inl ⟨rfl, rfl⟩
  | _ =>
      right
      use rfl, fun _ => trivial
      simp [Core.nextStop, Stage.next, ControlPc.rank, Stage.index]

omit [Field K] [LinearOrder K] [DecidableEq σ] in
/-- With a step, `stop` returns or gets closer to its return. -/
theorem ControlStep.rank_lt {c c' : Core σ K} {a : Action K} (h : ControlStep c a c')
    (hp : ∀ k, c.control.PastClose k) :
  (c'.control = .idle ∧ c'.lifecycle = c.lifecycle ++ [.stopped])
    ∨ c'.lifecycle = c.lifecycle ∧ (∀ k, c'.control.PastClose k)
      ∧ c'.control.rank < c.control.rank
  := by
  have hnext : ∀ k w, (ControlPc.joining k).rank ≤ c.control.rank →
      (((c.setWorker k w).nextStop k).control = .idle
          ∧ ((c.setWorker k w).nextStop k).lifecycle = c.lifecycle ++ [.stopped])
        ∨ ((c.setWorker k w).nextStop k).lifecycle = c.lifecycle
          ∧ (∀ k', ((c.setWorker k w).nextStop k).control.PastClose k')
          ∧ ((c.setWorker k w).nextStop k).control.rank < c.control.rank := by
    intro k w hle
    obtain hreturns | ⟨hlife, hpast, hlt⟩ := (c.setWorker k w).nextStop_cases k
    · exact Or.inl hreturns
    · exact Or.inr ⟨hlife, hpast, hlt.trans_le hle⟩
  cases h with
  | @stopLoses k hp' hx =>
      apply hnext
      rw [hp']
      cases k <;> decide
  | @stopWins k hp' hx =>
      right
      use rfl, fun _ => trivial
      rw [hp']
      cases k <;> simp [ControlPc.rank, Stage.index]
  | @notJoinable k hp' hj =>
      obtain hreturns | ⟨hlife, hpast, hlt⟩ := c.nextStop_cases k
      · exact Or.inl hreturns
      · refine Or.inr ⟨hlife, hpast, hlt.trans_le ?_⟩
        rw [hp']
        cases k <;> decide
  | @joinable k hp' hj =>
      right
      use rfl, fun _ => trivial
      rw [hp']
      cases k <;> simp [ControlPc.rank, Stage.index]
  | @join k hp' hx =>
      apply hnext
      rw [hp']
  | callClose hp' | closeReturns hp' =>
      rw [hp'] at hp
      apply absurd (Stage.index_le_post _) (Nat.not_le_of_lt (hp .post))
  | _ hp' =>
      rw [hp'] at hp
      cases hp .post

/-- While `stop` joins a worker whose thread has not ended, the thread winds up. -/
theorem Stopping.winding {lifecycle : List Event} {s : State σ K} (h : Stopping P lifecycle s)
    {k : Stage} (hk : s.core.control = .joining k)
    (hexited : (s.core.worker k).thread ≠ some .exited) :
  Winding P k s
  := by
  obtain ⟨hagrees, -⟩ := managed_of_reachable h.reachable k
  rw [hk, ControlPc.callPc, if_pos rfl] at hagrees
  obtain ⟨hr, hsome⟩ := hagrees
  refine ⟨h.reachable, hr, ?_⟩
  cases ht : (s.core.worker k).thread with
  | none =>
      rw [ht] at hsome
      cases hsome
  | some p =>
      cases p with
      | test => exact Or.inl ht
      | loop => exact Or.inr ht
      | exited => apply absurd ht hexited

/-- `stop` can take its next step, or the worker that it joins can. -/
theorem Stopping.enabled {lifecycle : List Event} {s : State σ K} (h : Stopping P lifecycle s) :
  (system σ P).Enabled s.helpful s
  := by
  obtain ⟨k, hk | hk | hk⟩ := ControlPc.cases_of_pastClose h.past
  · rw [State.helpful, hk]
    cases hx : ((s.core.worker k).exchange false).1 with
    | true => exact ⟨_, .tau (ControlStep.stopWins hk hx)⟩
    | false => exact ⟨_, .tau (ControlStep.stopLoses hk hx)⟩
  · rw [State.helpful, hk]
    cases hj : (s.core.worker k).joinable with
    | true => exact ⟨_, .tau (ControlStep.joinable hk hj)⟩
    | false => exact ⟨_, .tau (ControlStep.notJoinable hk hj)⟩
  · simp only [State.helpful, hk]
    split
    · rename_i hexited
      exact ⟨_, .tau (ControlStep.join hk hexited)⟩
    · rename_i hexited
      have hw := h.winding hk hexited
      apply enabled_of_freed h.reachable hw.freed hw.alive

/-- Past its calls of `close`, a step of the thread of `stop` is one of `stop`. -/
theorem Stopping.control {lifecycle : List Event} {s s' : State σ K} (h : Stopping P lifecycle s)
    (hstep : Step P s .control s') :
  ∃ a, ControlStep s.core a s'.core
  := by
  have hsynced := synced_of_reachable h.reachable
  have hcall : s.core.calling .control = none := by
    obtain ⟨k, hk | hk | hk⟩ := ControlPc.cases_of_pastClose h.past <;>
      rw [Core.calling, hk] <;> rfl
  have hraw := hsynced.raw .control
  have htensor := hsynced.tensor .control
  have hresult := hsynced.result .control
  rw [Core.rawCall, hcall] at hraw
  rw [Core.tensorCall, hcall] at htensor
  rw [Core.resultCall, hcall] at hresult
  obtain ⟨a, hc, -⟩ | ⟨-, ⟨hq, -⟩ | ⟨hq, -⟩ | ⟨hq, -⟩⟩ := hstep.cases
  · exact ⟨a, hc⟩
  · apply absurd hraw hq.ne_idle
  · apply absurd htensor hq.ne_idle
  · apply absurd hresult hq.ne_idle

/-- A thread that has ended takes no step, and stays until it is joined. -/
theorem exited_of_step {s s' : State σ K} {t : Thread σ} {k : Stage}
    (h : (system σ P).Reachable s) (hstep : Step P s t s') (ht : t ≠ .control)
    (hk : (s.core.worker k).thread = some .exited) :
  (s'.core.worker k).thread = some .exited
  := by
  obtain ⟨a, hc, -⟩ | ⟨hcore, -⟩ := hstep.cases
  · by_cases htk : t = .stage k
    · subst htk
      have hout : ¬ s.core.InLoop k := by
        rw [← attached_of_reachable h k, hk]
        nofun
      cases hc.loopStep with
      | inside hw hin hin' => apply absurd hin hout
      | enter ht' hr hw hin' => cases hk.symm.trans ht'
      | exit ht' hr hw hin' => cases hk.symm.trans ht'
      | leave hw hin hin' => apply absurd hin hout
    · rw [hc.worker htk ht, hk]
  · rw [hcore, hk]

/-- A step of another thread brings `stop` closer to its return, or leaves it waiting as before. -/
theorem Stopping.awaited {lifecycle : List Event} {s s' : State σ K} {t : Thread σ}
    (h : Stopping P lifecycle s) (hstep : Step P s t s') (ht : t ≠ .control)
    (hcontrol : s'.core.control = s.core.control) :
  s'.awaited < s.awaited ∨ t ≠ s.helpful ∧ s'.awaited = s.awaited ∧ s'.helpful = s.helpful
  := by
  simp only [State.awaited, State.helpful, hcontrol]
  obtain ⟨k, hk | hk | hk⟩ := ControlPc.cases_of_pastClose h.past
  · rw [hk]
    exact Or.inr ⟨ht, rfl, rfl⟩
  · rw [hk]
    exact Or.inr ⟨ht, rfl, rfl⟩
  · simp only [hk]
    by_cases hexited : (s.core.worker k).thread = some .exited
    · rw [if_pos hexited, if_pos hexited]
      have hexited' := exited_of_step h.reachable hstep ht hexited
      rw [if_pos hexited', if_pos hexited']
      exact Or.inr ⟨ht, rfl, rfl⟩
    · rw [if_neg hexited, if_neg hexited]
      obtain hexited' | ⟨hw, hle, hlt⟩ := (h.winding hk hexited).step hstep
      · left
        rw [if_pos hexited']
        apply s.remaining_pos
      · have hnot : (s'.core.worker k).thread ≠ some .exited := by
          obtain ht' | ht' := hw.alive <;> rw [ht'] <;> nofun
        rw [if_neg hnot, if_neg hnot]
        by_cases htk : t = .stage k
        · exact Or.inl (hlt htk)
        · obtain heq | hlt := hle.eq_or_lt
          · exact Or.inr ⟨htk, heq, rfl⟩
          · exact Or.inl hlt

/-- With a step, `stop` returns, or it is closer to its return, or waits as before. -/
theorem Stopping.step {lifecycle : List Event} {s s' : State σ K} {t : Thread σ}
    (h : Stopping P lifecycle s) (hstep : Step P s t s') :
  (s'.core.control = .idle ∧ s'.core.lifecycle = lifecycle ++ [.stopped])
    ∨ Stopping P lifecycle s'
      ∧ (toLex (s'.core.control.rank, s'.awaited) < toLex (s.core.control.rank, s.awaited)
        ∨ t ≠ s.helpful
          ∧ toLex (s'.core.control.rank, s'.awaited) = toLex (s.core.control.rank, s.awaited)
          ∧ s'.helpful = s.helpful)
  := by
  have hreach := h.reachable.step hstep
  by_cases ht : t = .control
  · subst ht
    obtain ⟨a, hc⟩ := h.control hstep
    obtain ⟨hidle, hlife⟩ | ⟨hlife, hpast, hlt⟩ := hc.rank_lt h.past
    · left
      rw [hlife, h.lifecycle]
      exact ⟨hidle, rfl⟩
    · right
      use ⟨hreach, hpast, hlife.trans h.lifecycle⟩
      left
      rw [Prod.Lex.toLex_lt_toLex]
      left
      apply hlt
  · right
    have hsame : s'.core.control = s.core.control ∧ s'.core.lifecycle = s.core.lifecycle := by
      obtain ⟨a, hc, -⟩ | ⟨hcore, -⟩ := hstep.cases
      · apply hc.control ht
      · rw [hcore]
        exact ⟨rfl, rfl⟩
    obtain ⟨hcontrol, hlife⟩ := hsame
    constructor
    · refine ⟨hreach, ?_, hlife.trans h.lifecycle⟩
      rw [hcontrol]
      apply h.past
    · rw [hcontrol, Prod.Lex.toLex_lt_toLex]
      obtain hlt | ⟨hne, heq, hhelp⟩ := h.awaited hstep ht hcontrol
      · exact Or.inl (Or.inr ⟨rfl, hlt⟩)
      · rw [heq]
        exact Or.inr ⟨hne, rfl, hhelp⟩

/-! ### `stop` cannot hang -/

omit [Field K] [LinearOrder K] [DecidableEq σ] in
/-- A call of `start` or `stop` is in progress. -/
def State.Busy (s : State σ K) : Prop :=
  s.core.control ≠ .idle

/-- No worker is blocked in the state, or in any state that steps lead to. -/
def NeverBlocked (P : Params K) (s : State σ K) : Prop :=
  ∀ ls s', (system σ P).Run s ls s' → ∀ k, ¬ Blocked P s' k

/-- The thread of the stage ends within `n` steps of its own, whatever the order of steps. -/
def EndsWithin (P : Params K) (k : Stage) (s : State σ K) (n : ℕ) : Prop :=
  ∀ ls s', (system σ P).Run s ls s' → n ≤ ls.count (.stage k) →
    ∃ ls₁ ls₂ s₁, ls = ls₁ ++ ls₂ ∧ (system σ P).Run s ls₁ s₁ ∧ (system σ P).Run s₁ ls₂ s'
      ∧ (s₁.core.worker k).thread = some .exited ∧ ls₁.count (.stage k) ≤ n

/-- The call of `stop` in progress returns in every execution in which the calling thread and those
of the workers do not stop for ever while they could take steps. -/
def StopReturns (P : Params K) (s : State σ K) : Prop :=
  ∀ E : (system σ P).Execution, E.state 0 = s → E.WeaklyFair State.Busy .control →
    (∀ k, E.WeaklyFair State.Busy (.stage k)) →
    ∃ m, (E.state m).core.control = .idle
      ∧ (E.state m).core.lifecycle = s.core.lifecycle ++ [.stopped]

/-- Once its flag has been cleared, the thread of a worker ends within a number of its own steps
that is linear in the length of its input queue. -/
theorem Winding.endsWithin {s : State σ K} {k : Stage} (h : Winding P k s) :
  EndsWithin P k s (32 * s.inputLength k + 35)
  := by
  intro ls s' hr hcount
  have hle := remaining_le h.reachable k
  have hstep : ∀ s t s', Winding P k s → (system σ P).Step s t s' →
      (s'.core.worker k).thread = some .exited ∨ Winding P k s' ∧ s'.remaining k ≤ s.remaining k
        ∧ (t = .stage k → s'.remaining k < s.remaining k) := by
    intro s t s' hw hs
    apply hw.step hs
  obtain ⟨ls₁, ls₂, s₁, hls, hr₁, hr₂, hexited, hc⟩ | ⟨hw, hc⟩ :=
    hr.reaches_or_count_le (fun s => s.remaining k) (fun s _ => s.remaining_pos k) hstep h
  · exact ⟨ls₁, ls₂, s₁, hls, hr₁, hr₂, hexited, hc.trans hle⟩
  · have hpos := s'.remaining_pos k
    omega

/-- Past its calls of `close`, `stop` returns. -/
theorem Stopping.returns {s : State σ K} (h : Stopping P s.core.lifecycle s) :
  StopReturns P s
  := by
  intro E hE hcontrol hstage
  have hbusy : ∀ s' : State σ K, Stopping P s.core.lifecycle s' → s'.Busy := by
    intro s' hs hidle
    obtain ⟨k, hk | hk | hk⟩ := ControlPc.cases_of_pastClose hs.past <;>
      cases hidle.symm.trans hk
  have hfair : ∀ s' : State σ K, E.WeaklyFair State.Busy s'.helpful := by
    intro s'
    rw [State.helpful]
    split
    · split
      · apply hcontrol
      · apply hstage
    · apply hcontrol
  have henabled : ∀ s', Stopping P s.core.lifecycle s' → (system σ P).Enabled s'.helpful s' := by
    intro s' hs
    apply hs.enabled
  have hstart : Stopping P s.core.lifecycle (E.state 0) := by rwa [hE]
  obtain ⟨m, -, hm⟩ := E.reaches_of_measure (fun s => toLex (s.core.control.rank, s.awaited))
    State.helpful hbusy (fun s _ => hfair s) henabled (fun _ _ _ hs hstep => hs.step hstep) hstart
  use m

/-- In every reachable state where `stop` is past its calls of `close`, no worker is blocked, nor
in any state that steps lead to, and `stop` returns; and in every reachable state where the flag
of a worker has been cleared and its thread has not ended, the thread ends after at most 32 of its
own steps for each item in its input queue, and 35 more. -/
theorem stop_cannot_hang (P : Params K) {s : State σ K} (h : (system σ P).Reachable s) :
  ((∀ k, s.core.control.PastClose k) → NeverBlocked P s ∧ StopReturns P s)
    ∧ ∀ k, (s.core.worker k).running = false → Alive (s.core.worker k) →
      EndsWithin P k s (32 * s.inputLength k + 35)
  := by
  constructor
  · intro hp
    constructor
    · intro ls s' hr k
      apply (freed_of_reachable h hp).not_blocked h hr
    · apply Stopping.returns ⟨h, hp, rfl⟩
  · intro k hr halive
    apply Winding.endsWithin ⟨h, hr, halive⟩

/-- The theorem where `stop` has cleared the first flag, and the thread is still in its loop. -/
theorem stop_cannot_hang_testing :
  ∃ s : State Unit ℚ, (system Unit Params.small).Reachable s ∧ s.core.control = .testing .preprocess
    ∧ NeverBlocked Params.small s ∧ StopReturns Params.small s
    ∧ EndsWithin Params.small .preprocess s (32 * s.inputLength .preprocess + 35)
  := by
  have hclosed := (quiet_started (σ := Unit) (P := Params.small)).closeQueues rfl
  obtain ⟨rawLog, tensorLog, resultLog, h⟩ :=
    hclosed.tau .control (ControlStep.stopWins (k := .preprocess) rfl rfl)
  obtain ⟨hpast, hends⟩ := stop_cannot_hang Params.small h
  obtain ⟨hnever, hreturns⟩ := hpast (fun k => trivial)
  refine ⟨_, h, rfl, hnever, hreturns, ?_⟩
  apply hends
  · rfl
  · exact Or.inr rfl

end Pipeline
