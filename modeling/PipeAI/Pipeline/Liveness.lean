import PipeAI.Pipeline.Rest

/-!
# Liveness

A started pipeline delivers.  As long as `stop` is not called, the result of every complete block
of samples accepted is given to the callback, in every execution in which no thread that is in the
middle of something stops for ever while it could take a step (`delivers_eventually`).  For the
last stage that has something to do takes only so many steps until there is progress, and the
steps of the other threads give it no more to do (`Awaiting.step`); and progress is bounded as long
as the result is not delivered (`progress_le`).
-/

namespace Pipeline

variable {σ K : Type} [Field K] [LinearOrder K] [DecidableEq σ] {P : Params K}

/-! ### What the last stage has to do -/

omit [Field K] [LinearOrder K] [DecidableEq σ] in
/-- What the thread of a worker has to do until it has entered its loop. -/
def entrance (w : Worker) : ℕ :=
  match w.thread with
  | some .test => 10
  | _ => 0

omit [Field K] [LinearOrder K] [DecidableEq σ] in
/-- One for each queue in which the thread waits. -/
def State.patience (s : State σ K) (t : Thread σ) : ℕ :=
  BlockingQueue.patience (s.raw_queue.phase t) + BlockingQueue.patience (s.tensor_queue.phase t)
    + BlockingQueue.patience (s.result_queue.phase t)

omit [Field K] [LinearOrder K] [DecidableEq σ] in
/-- What a stage has to do until there is progress. -/
def State.distance (s : State σ K) (k : Stage) : ℕ :=
  s.remaining k + s.patience (.stage k) + entrance (s.core.worker k)

/-- The return of `pop` that ends the loop of a stage. -/
def Stage.ends {K : Type} : Stage → Action K
  | .preprocess => .ret (.raw (.popped none))
  | .inference => .ret (.tensor (.popped none))
  | .post => .ret (.result (.popped none))

/-- With a step of the core that does not end its loop, the thread of a stage whose flag is set has
less to do. -/
theorem CoreStep.weight_lt_of_running {c c' : Core σ K} {a : Action K} {k : Stage}
    (h : CoreStep P c (.stage k) a c') (hr : (c.worker k).running = true) (ha : a ≠ k.ends) :
  c'.weight k + entrance (c'.worker k) + a.began
    < c.weight k + entrance (c.worker k) + a.ended + a.received k
  := by
  cases k with
  | preprocess =>
      cases h with
      | enter hp ht hr' =>
          simp [Core.setWorker, Worker.test, entrance, hp, ht, hr', Action.raw,
            Action.tensor, Action.result]
      | exit ht hr' => cases hr.symm.trans hr'
      | popEnds hp => apply absurd rfl ha
      | run hp hw hrun =>
          simp only [Core.weight, hp]
          split <;> simp [Action.raw, Action.tensor, Action.result]
      | _ hp =>
          simp only [hp, Core.weight, PreprocessPc.weight, Action.began, Action.ended,
            Action.received, Action.raw, Action.tensor, Action.result,
            BlockingQueue.Access.began, BlockingQueue.Access.ended,
            BlockingQueue.Access.received, BlockingQueue.takenValue, Option.toList_some,
            List.length_singleton]
          omega
  | inference =>
      cases h with
      | enter hp ht hr' =>
          simp [Core.setWorker, Worker.test, entrance, hp, ht, hr', Action.raw,
            Action.tensor, Action.result]
      | exit ht hr' => cases hr.symm.trans hr'
      | popEnds hp => apply absurd rfl ha
      | _ hp =>
          simp only [hp, Core.weight, InferencePc.weight, Action.began, Action.ended,
            Action.received, Action.raw, Action.tensor, Action.result,
            BlockingQueue.Access.began, BlockingQueue.Access.ended,
            BlockingQueue.Access.received, BlockingQueue.takenValue, Option.toList_some,
            List.length_singleton]
          omega
  | post =>
      cases h with
      | enter hp ht hr' =>
          simp [Core.setWorker, Worker.test, entrance, hp, ht, hr', Action.raw,
            Action.tensor, Action.result]
      | exit ht hr' => cases hr.symm.trans hr'
      | popEnds hp => apply absurd rfl ha
      | _ hp =>
          simp only [hp, Core.weight, PostPc.weight, Action.began, Action.ended,
            Action.received, Action.raw, Action.tensor, Action.result,
            BlockingQueue.Access.began, BlockingQueue.Access.ended,
            BlockingQueue.Access.received, BlockingQueue.takenValue, Option.toList_some,
            List.length_singleton]
          omega

/-- A stage that finds a value to pop, and room for what it pushes, has less to do after a step of its
own without progress. -/
theorem State.ReadyAt.distance_lt {s s' : State σ K} {l : Stage} (h : s.ReadyAt l)
    (hs : (system σ P).Reachable s) (hup : s.core.Up) (hstep : Step P s (.stage l) s')
    (hstill : Still s s') :
  s'.distance l < s.distance l
  := by
  obtain ⟨hready₁, hready₂, hready₃⟩ := h
  obtain ⟨hopen₁, hopen₂, hopen₃⟩ := open_of_up hs hup
  obtain ⟨huntimed₁, huntimed₂, huntimed₃⟩ := (synced_of_reachable hs).untimed (.stage l)
  obtain ⟨hemptied₁, hemptied₂⟩ := emptied_inputs hs
  have hemptied₃ := emptied_of_reachable hs
  have hrunning := running_of_up hs hup l
  simp only [State.distance, State.remaining, State.work, State.patience]
  obtain ⟨a, hc, hraw, htensor, hresult⟩ | ⟨hcore, hq⟩ := hstep.cases
  · have ha : a ≠ l.ends := by
      rintro rfl
      cases l with
      | preprocess =>
          cases hopen₁.symm.trans (hemptied₁ (by rw [hraw.1]; rfl)).1
      | inference =>
          cases hopen₂.symm.trans (hemptied₂ (by rw [htensor.1]; rfl)).1
      | post =>
          cases hopen₃.symm.trans (hemptied₃ (by rw [hresult.1]; rfl)).1
    have hweight := hc.weight_lt_of_running hrunning ha
    obtain ⟨hload₁, hwork₁⟩ := hraw.work_self
    obtain ⟨hload₂, hwork₂⟩ := htensor.work_self
    obtain ⟨hload₃, hwork₃⟩ := hresult.work_self
    rw [hraw.patience_self, htensor.patience_self, hresult.patience_self]
    rw [Action.began, Action.ended] at hweight
    cases l <;> simp only [State.load, Action.received] at hweight ⊢ <;> omega
  · rw [hcore]
    obtain ⟨hq, htensor, hresult⟩ | ⟨hq, hraw, hresult⟩ | ⟨hq, hraw, htensor⟩ := hq
    · have hsilent := BlockingQueue.silent_of_log hq hstill.raw.2
      have hwork := BlockingQueue.work_lt_of_silent
        (fun op hv => ⟨huntimed₁ op hv, hready₁ op hv⟩) hsilent hq
      have hload := BlockingQueue.load_of_silent hsilent (.stage l)
      rw [htensor, hresult]
      cases l <;> simp only [State.load, htensor, hresult] <;> omega
    · have hsilent := BlockingQueue.silent_of_log hq hstill.tensor.2
      have hwork := BlockingQueue.work_lt_of_silent
        (fun op hv => ⟨huntimed₂ op hv, hready₂ op hv⟩) hsilent hq
      have hload := BlockingQueue.load_of_silent hsilent (.stage l)
      rw [hraw, hresult]
      cases l <;> simp only [State.load, hraw, hresult] <;> omega
    · have hsilent := BlockingQueue.silent_of_log hq hstill.result.2
      have hwork := BlockingQueue.work_lt_of_silent
        (fun op hv => ⟨huntimed₃ op hv, hready₃ op hv⟩) hsilent hq
      have hload := BlockingQueue.load_of_silent hsilent (.stage l)
      rw [hraw, htensor]
      cases l <;> simp only [State.load, hraw, htensor] <;> omega

omit [Field K] [LinearOrder K] [DecidableEq σ] in
/-- The thread is in the same phases in all queues. -/
def SamePhases (s s' : State σ K) (t : Thread σ) : Prop :=
  s'.raw_queue.phase t = s.raw_queue.phase t ∧ s'.tensor_queue.phase t = s.tensor_queue.phase t
    ∧ s'.result_queue.phase t = s.result_queue.phase t

/-- After a step of another thread without progress, a stage has less to do, since it has been
woken, or is where it was. -/
theorem distance_of_other {s s' : State σ K} {t : Thread σ} {k : Stage}
    (h : (system σ P).Reachable s) (hup : s.core.Up) (hup' : s'.core.Up) (hstep : Step P s t s')
    (hstill : Still s s') (ht : t ≠ .stage k) :
  s'.distance k < s.distance k
    ∨ s'.distance k = s.distance k ∧ SamePhases s s' (.stage k)
  := by
  have hne : Thread.stage k ≠ t := ht.symm
  simp only [State.distance, State.remaining, State.work, State.patience, SamePhases]
  rw [hstep.worker_of_up h hup hup' ht]
  obtain ⟨a, hc, hraw, htensor, hresult⟩ | ⟨hcore, hq⟩ := hstep.cases
  · right
    obtain ⟨hload₁, -⟩ := hraw.work_of_ne hne
    obtain ⟨hload₂, -⟩ := htensor.work_of_ne hne
    obtain ⟨hload₃, -⟩ := hresult.work_of_ne hne
    rw [hraw.phase_of_ne hne, htensor.phase_of_ne hne, hresult.phase_of_ne hne]
    refine ⟨?_, rfl, rfl, rfl⟩
    cases k with
    | preprocess => simp only [State.load, Core.weight, (hc.forming ht).1, hload₁]
    | inference => simp only [State.load, Core.weight, (hc.inferring ht).1, hload₂]
    | post => simp only [State.load, Core.weight, (hc.posting ht).1, hload₃]
  · rw [hcore]
    obtain ⟨hq, htensor, hresult⟩ | ⟨hq, hraw, hresult⟩ | ⟨hq, hraw, htensor⟩ := hq
    · have hload := BlockingQueue.load_of_silent
        (BlockingQueue.silent_of_log hq hstill.raw.2) (.stage k)
      obtain ⟨hwork, hphase⟩ := BlockingQueue.work_of_other hne hq
      rw [htensor, hresult, hwork]
      obtain hsame | hlt := hphase
      · right
        rw [hsame]
        refine ⟨?_, rfl, rfl, rfl⟩
        cases k <;> simp only [State.load, htensor, hresult, hload]
      · left
        cases k <;> simp only [State.load, htensor, hresult] <;> omega
    · have hload := BlockingQueue.load_of_silent
        (BlockingQueue.silent_of_log hq hstill.tensor.2) (.stage k)
      obtain ⟨hwork, hphase⟩ := BlockingQueue.work_of_other hne hq
      rw [hraw, hresult, hwork]
      obtain hsame | hlt := hphase
      · right
        rw [hsame]
        refine ⟨?_, rfl, rfl, rfl⟩
        cases k <;> simp only [State.load, hraw, hresult, hload]
      · left
        cases k <;> simp only [State.load, hraw, hresult] <;> omega
    · have hload := BlockingQueue.load_of_silent
        (BlockingQueue.silent_of_log hq hstill.result.2) (.stage k)
      obtain ⟨hwork, hphase⟩ := BlockingQueue.work_of_other hne hq
      rw [hraw, htensor, hwork]
      obtain hsame | hlt := hphase
      · right
        rw [hsame]
        refine ⟨?_, rfl, rfl, rfl⟩
        cases k <;> simp only [State.load, hraw, htensor, hload]
      · left
        cases k <;> simp only [State.load, hraw, htensor] <;> omega

/-- While the flags are set, a thread in a call of a queue takes no step of the core that leaves the
queues. -/
theorem CoreStep.calling_of_tau {c c' : Core σ K} {t : Thread σ} (h : CoreStep P c t .tau c')
    (hr : c.Running) :
  c.calling t = none
  := by
  rcases t with (_ | _ | _) | _ | i
  · cases h with
    | exit ht hr' => cases (hr _).symm.trans hr'
    | _ hp =>
        rw [Core.calling, hp]
        rfl
  · cases h with
    | exit ht hr' => cases (hr _).symm.trans hr'
    | _ hp =>
        rw [Core.calling, hp]
        rfl
  · cases h with
    | exit ht hr' => cases (hr _).symm.trans hr'
    | _ hp =>
        rw [Core.calling, hp]
        rfl
  · cases h with
    | _ hp =>
        rw [Core.calling, hp]
        rfl
  · cases h

omit [Field K] [LinearOrder K] [DecidableEq σ] in
/-- A thread that has still to send the signal of its push to the input queue of a stage is in no
call of another queue. -/
theorem Synced.of_notifies {s : State σ K} (h : Synced s) {k : Stage} {t : Thread σ}
    (ht : s.NotifiesInput k t) :
  (s.raw_queue.phase t ≠ .idle → k = .preprocess) ∧ (s.tensor_queue.phase t ≠ .idle → k = .inference)
    ∧ (s.result_queue.phase t ≠ .idle → k = .post)
  := by
  have hne : ∀ {T : Type} {q : BlockingQueue.State (Thread σ) T}, BlockingQueue.Notifies q t →
      q.phase t ≠ .idle := by
    intro T q hq hidle
    cases hq.symm.trans hidle
  obtain ⟨h₁, h₂⟩ | ⟨h₁, h₂⟩ | ⟨h₁, h₂⟩ := h.idle_elsewhere t
  · cases k with
    | preprocess => exact ⟨fun _ => rfl, absurd h₁, absurd h₂⟩
    | inference => apply absurd h₁ (hne ht)
    | post => apply absurd h₂ (hne ht)
  · cases k with
    | preprocess => apply absurd h₁ (hne ht)
    | inference => exact ⟨absurd h₁, fun _ => rfl, absurd h₂⟩
    | post => apply absurd h₂ (hne ht)
  · cases k with
    | preprocess => apply absurd h₁ (hne ht)
    | inference => apply absurd h₂ (hne ht)
    | post => exact ⟨absurd h₁, absurd h₂, fun _ => rfl⟩

/-- A thread that has still to send the signal of its push takes no step of the core. -/
theorem State.NotifiesInput.not_coreStep {s s' : State σ K} {k : Stage} {t : Thread σ}
    {a : Action K} (h : s.NotifiesInput k t) (hsynced : Synced s) (hr : s.core.Running)
    (hraw : a.raw.Run t s.raw_queue s'.raw_queue)
    (htensor : a.tensor.Run t s.tensor_queue s'.tensor_queue)
    (hresult : a.result.Run t s.result_queue s'.result_queue) :
  ¬ CoreStep P s.core t a s'.core
  := by
  intro hc
  have hcalling := hsynced.calling_of_notifies h
  obtain ⟨hk₁, hk₂, hk₃⟩ := hsynced.of_notifies h
  cases a with
  | tau => apply hcalling (hc.calling_of_tau hr)
  | call x => apply hcalling hc.calls.allowed
  | ret r =>
      cases r with
      | raw r =>
          have hp : s.raw_queue.phase t = .leaving r [] := hraw.1
          obtain rfl := hk₁ (by rw [hp]; simp)
          cases hp.symm.trans h
      | tensor r =>
          have hp : s.tensor_queue.phase t = .leaving r [] := htensor.1
          obtain rfl := hk₂ (by rw [hp]; simp)
          cases hp.symm.trans h
      | result r =>
          have hp : s.result_queue.phase t = .leaving r [] := hresult.1
          obtain rfl := hk₃ (by rw [hp]; simp)
          cases hp.symm.trans h

/-- Where a stage waits for its input, a step of a thread that has still to send the signal of its
push wakes it. -/
theorem State.NotifiesInput.wakes {s s' : State σ K} {k : Stage} {t : Thread σ}
    (h : s.NotifiesInput k t) (hs : (system σ P).Reachable s) (hr : s.core.Running)
    (hw : s.WaitsForInput k) (hstep : Step P s t s') :
  ¬ SamePhases s s' (.stage k)
  := by
  have hsynced := synced_of_reachable hs
  obtain ⟨hk₁, hk₂, hk₃⟩ := hsynced.of_notifies h
  rintro ⟨hraw, htensor, hresult⟩
  obtain ⟨a, hc, hx₁, hx₂, hx₃⟩ | ⟨-, ⟨hq, -⟩ | ⟨hq, -⟩ | ⟨hq, -⟩⟩ := hstep.cases
  · apply h.not_coreStep hsynced hr hx₁ hx₂ hx₃ hc
  · obtain rfl := hk₁ hq.ne_idle
    have hwoken := BlockingQueue.Notifies.wakes h hsynced.rawPops hw hq
    cases (hwoken.symm.trans hraw).trans hw
  · obtain rfl := hk₂ hq.ne_idle
    have hwoken := BlockingQueue.Notifies.wakes h hsynced.tensorPops hw hq
    cases (hwoken.symm.trans htensor).trans hw
  · obtain rfl := hk₃ hq.ne_idle
    have hwoken := BlockingQueue.Notifies.wakes h hsynced.resultPops hw hq
    cases (hwoken.symm.trans hresult).trans hw

/-- A step of another thread that leaves the last stage where it is leaves the helpful threads. -/
theorem State.Helpful.of_step {s s' : State σ K} {t u : Thread σ} (h : s.Helpful u)
    (hstep : Step P s t s') (hstill : Still s s') (hsame : SamePhases s s' (.stage s.server))
    (hu : s.NotifiesInput s.server u → u ≠ t) :
  s'.Helpful u
  := by
  obtain ⟨hraw, htensor, hresult⟩ := hsame
  rw [State.Helpful, hstill.server]
  obtain ⟨hw, rfl⟩ | ⟨hw, hn⟩ := h
  · left
    refine ⟨?_, rfl⟩
    rw [State.Waits, hraw, htensor, hresult]
    apply hw
  · right
    have hne := hu hn
    obtain ⟨h₁, h₂, h₃⟩ := hstep.touches
    revert hw hn hraw htensor hresult
    cases s.server with
    | preprocess =>
        intro hraw _ _ hw hn
        exact ⟨hraw.trans hw, BlockingQueue.Notifies.of_touches hn hne h₁⟩
    | inference =>
        intro _ htensor _ hw hn
        exact ⟨htensor.trans hw, BlockingQueue.Notifies.of_touches hn hne h₂⟩
    | post =>
        intro _ _ hresult hw hn
        exact ⟨hresult.trans hw, BlockingQueue.Notifies.of_touches hn hne h₃⟩

/-! ### Every complete block is delivered -/

/-- `stop` has been called, the result of the block that `k` blocks come before has been delivered,
or there has been progress. -/
def Advances (k p : ℕ) (s : State σ K) : Prop :=
  s.core.StopCalled ∨ k < s.core.callbacks.length ∨ p < s.progress

/-- With a step, the pipeline advances, or the last stage has less to do, or nothing is lost for
it. -/
theorem Awaiting.step {k : ℕ} {s s' : State σ K} {t : Thread σ} (h : Awaiting P k s)
    (hstep : Step P s t s') :
  Advances k s.progress s' ∨ (Awaiting P k s' ∧ s'.progress = s.progress) ∧
    (s'.distance s'.server < s.distance s.server ∨ ¬ s.Helpful t
      ∧ s'.distance s'.server = s.distance s.server ∧ ∀ u, s.Helpful u → s'.Helpful u)
  := by
  by_cases hcalled : s'.core.StopCalled
  · exact Or.inl (Or.inl hcalled)
  · have hup := h.up.step hstep hcalled
    obtain hlt | hstill := hstep.still_or_progress h.reachable hup
    · exact Or.inl (Or.inr (Or.inr hlt))
    · right
      constructor
      · refine ⟨⟨h.reachable.step hstep, hup, ?_, ?_⟩, hstill.progress⟩
        · rw [hstill.callbacks]
          apply h.undelivered
        · rw [hstill.raw.2]
          apply h.accepted
      · rw [hstill.server]
        by_cases ht : t = .stage s.server
        · subst ht
          left
          apply h.ready.distance_lt h.reachable h.up hstep hstill
        · obtain hlt | ⟨heq, hsame⟩ :=
            distance_of_other h.reachable h.up hup hstep hstill ht
          · exact Or.inl hlt
          · right
            have hnot : s.WaitsForInput s.server → ¬ s.NotifiesInput s.server t := by
              intro hw hn
              apply hn.wakes h.reachable (running_of_up h.reachable h.up) hw hstep hsame
            refine ⟨?_, heq, ?_⟩
            · rintro (⟨-, rfl⟩ | ⟨hw, hn⟩)
              · apply ht rfl
              · apply hnot hw hn
            · intro u hu
              obtain ⟨hw, rfl⟩ | ⟨hw, hn⟩ := hu
              · apply State.Helpful.of_step (Or.inl ⟨hw, rfl⟩) hstep hstill hsame
                intro _
                apply Ne.symm ht
              · apply State.Helpful.of_step (Or.inr ⟨hw, hn⟩) hstep hstill hsame
                rintro - rfl
                apply hnot hw hn

/-- No thread that is in the middle of something, and waits in no queue, stops for ever while it
could take a step. -/
def Fair (E : (system σ P).Execution) : Prop :=
  ∀ t, E.WeaklyFair (fun s => s.Active t) t

variable [Fintype σ]

/-- In a fair execution, the pipeline advances while a result is awaited. -/
theorem Awaiting.advances {E : (system σ P).Execution} (hE : Fair E) {k n : ℕ}
    (h : Awaiting P k (E.state n)) :
  ∃ m, n ≤ m ∧ Advances k (E.state n).progress (E.state m)
  := by
  apply E.reaches_of_helpful (fun s => s.distance s.server) State.Helpful
    (R := fun s => Awaiting P k s ∧ s.progress = (E.state n).progress)
    (C := fun t s => s.Active t)
  · intro s t _ _
    apply hE t
  · intro s hs
    apply hs.1.exists_helpful
  · intro s t hs ht
    apply hs.1.enabled ht
  · rintro s t s' ⟨hs, hp⟩ hstep
    rw [← hp]
    apply hs.step hstep
  · exact ⟨h, rfl⟩

omit [Fintype σ] in
/-- The samples accepted only get more. -/
theorem Step.accepted_prefix {s s' : State σ K} {t : Thread σ} (h : Step P s t s') :
  BlockingQueue.accepted s.raw_queue.log <+: BlockingQueue.accepted s'.raw_queue.log
  := by
  obtain ⟨x, hx⟩ | hq := h.touches.1
  · rw [hx.same.2]
  · obtain hsilent | ⟨op, r, heffect⟩ := hq.cases
    · rw [hsilent.log]
    · rw [heffect.log, BlockingQueue.accepted_snoc]
      apply List.prefix_append

omit [Fintype σ] in
/-- Later in an execution a state is reachable, the returns of `start` and `stop` are more, and so
are the samples accepted. -/
theorem later_of_reachable {E : (system σ P).Execution} {n m : ℕ} (hm : n ≤ m)
    (h : (system σ P).Reachable (E.state n)) :
  (system σ P).Reachable (E.state m)
    ∧ (E.state n).core.lifecycle <+: (E.state m).core.lifecycle
    ∧ BlockingQueue.accepted (E.state n).raw_queue.log
      <+: BlockingQueue.accepted (E.state m).raw_queue.log
  := by
  apply E.stable (P := fun s => (system σ P).Reachable s
    ∧ (E.state n).core.lifecycle <+: s.core.lifecycle
    ∧ BlockingQueue.accepted (E.state n).raw_queue.log
      <+: BlockingQueue.accepted s.raw_queue.log) _ _ m hm
  · rintro s t s' ⟨hs, hlife, haccepted⟩ hstep
    exact ⟨hs.step hstep, hlife.trans (Step.lifecycle_prefix hstep),
      haccepted.trans (Step.accepted_prefix hstep)⟩
  · exact ⟨h, List.prefix_refl _, List.prefix_refl _⟩

/-- In a fair execution, the result of a block that has been accepted is delivered, or `stop` is
called. -/
theorem Awaiting.delivers {E : (system σ P).Execution} (hE : Fair E) {k n : ℕ}
    (h : Awaiting P k (E.state n)) :
  ∃ m, n ≤ m ∧ ((E.state m).core.StopCalled ∨ k < (E.state m).core.callbacks.length)
  := by
  induction hd : 9 * ((k + (2 * P.queue_capacity + 3)) * kTargetLength + P.queue_capacity)
    - (E.state n).progress using Nat.strong_induction_on generalizing n with
  | _ d ih =>
      obtain ⟨m, hm, hcalled | hlt | hprogress⟩ := h.advances hE
      · exact ⟨m, hm, Or.inl hcalled⟩
      · exact ⟨m, hm, Or.inr hlt⟩
      · by_cases hcalled : (E.state m).core.StopCalled
        · exact ⟨m, hm, Or.inl hcalled⟩
        · by_cases hlt : k < (E.state m).core.callbacks.length
          · exact ⟨m, hm, Or.inr hlt⟩
          · obtain ⟨hreach, hlife, haccepted⟩ := later_of_reachable hm h.reachable
            have h' : Awaiting P k (E.state m) := ⟨hreach, ⟨hlife.subset h.up.1, hcalled⟩,
              Nat.le_of_not_lt hlt, h.accepted.trans haccepted.length_le⟩
            have hle := progress_le h'.reachable h'.up h'.undelivered
            obtain ⟨m', hm', hdone⟩ := ih _ (by omega) h' rfl
            exact ⟨m', hm.trans hm', hdone⟩

omit [Fintype σ] [DecidableEq σ] [Field K] [LinearOrder K] in
/-- A complete block of a prefix is a block of the list. -/
theorem block_of_isPrefix {α : Type} {l l' : List α} (h : l <+: l') {k : ℕ}
    (hk : (k + 1) * kTargetLength ≤ l.length) :
  block l' k = block l k
  := by
  obtain ⟨rest, rfl⟩ := h
  rw [Nat.succ_mul] at hk
  rw [block, block, List.drop_append_of_le_length (by omega), List.take_append_of_le_length]
  rw [List.length_drop]
  omega

/-- In every fair execution from a reachable state in which `start` has returned true, either `stop`
is called, or for every complete block of the samples accepted, the callback is given the result:
the one with the number of the block, computed by the engine for the tensor of the block.
Whatever the other threads submit in the meantime, however the steps interleave, and whichever
waiters are woken spuriously or not, no block is left behind. -/
theorem delivers_eventually (P : Params K) {s : State σ K} (h : (system σ P).Reachable s)
    (hs : .started true ∈ s.core.lifecycle) (E : (system σ P).Execution) (hE : E.state 0 = s)
    (hfair : Fair E) (k : ℕ)
    (hk : (k + 1) * kTargetLength ≤ (BlockingQueue.accepted s.raw_queue.log).length) :
  ∃ m, (E.state m).core.StopCalled ∨ ∃ input a,
    tensorOf P (block (BlockingQueue.accepted s.raw_queue.log) k) = some input
      ∧ (E.state m).core.inferred[k]? = some (input, a)
      ∧ (E.state m).core.callbacks[k]?
        = some (Classifier.classify P.exp (inferenceResult (UInt64.ofNat (k + 1)) a))
  := by
  subst hE
  have hdone : ∃ m, (E.state m).core.StopCalled ∨ k < (E.state m).core.callbacks.length := by
    by_cases hcalled : (E.state 0).core.StopCalled
    · exact ⟨0, Or.inl hcalled⟩
    · by_cases hlt : k < (E.state 0).core.callbacks.length
      · exact ⟨0, Or.inr hlt⟩
      · have hawaiting : Awaiting P k (E.state 0) := ⟨h, ⟨hs, hcalled⟩, Nat.le_of_not_lt hlt, hk⟩
        obtain ⟨m, -, hdone⟩ := hawaiting.delivers hfair
        exact ⟨m, hdone⟩
  obtain ⟨m, hcalled | hlt⟩ := hdone
  · exact ⟨m, Or.inl hcalled⟩
  · use m
    right
    obtain ⟨hreach, -, haccepted⟩ := later_of_reachable m.zero_le h
    have hr := List.getElem?_eq_getElem hlt
    obtain ⟨input, a, hinferred, heq⟩ := callbacks_of_reachable hreach hr
    obtain ⟨htensor, -⟩ := inferred_of_reachable hreach hinferred
    rw [block_of_isPrefix haccepted hk] at htensor
    rw [heq] at hr
    exact ⟨input, a, htensor, hinferred, hr⟩

/-- Every state has a fair execution. -/
theorem exists_fair (P : Params K) (s : State σ K) :
  ∃ E : (system σ P).Execution, E.state 0 = s ∧ Fair E
  := TransitionSystem.Execution.exists_weaklyFair (system σ P) (fun t s => s.Active t) s

/-- The theorem for a window whose last sample has been taken from the raw queue. -/
theorem delivers_eventually_window :
  ∃ (E : (system Unit Params.small).Execution) (m : ℕ), (E.state 0).core.callbacks = []
    ∧ ((E.state m).core.StopCalled ∨ ∃ input a,
      tensorOf Params.small (block (BlockingQueue.accepted (E.state 0).raw_queue.log) 0)
          = some input
        ∧ (E.state m).core.inferred[0]? = some (input, a)
        ∧ (E.state m).core.callbacks[0]?
          = some (Classifier.classify Params.small.exp
            (inferenceResult (UInt64.ofNat (0 + 1)) a)))
  := by
  have hfill := quiet_started.fill (σ := Unit) (P := Params.small) ready_started ()
    (List.replicate (kTargetLength - 1) (RawSample.default ℚ))
    (by rw [List.length_replicate]; decide)
  obtain ⟨rawLog, tensorLog, resultLog, h⟩ :=
    hfill.feed ⟨rfl, rfl, rfl, rfl, fun _ => rfl, rfl⟩ () (RawSample.default ℚ)
  obtain ⟨E, hE, hfair⟩ := exists_fair (σ := Unit) Params.small _
  have hconserves := samples_eq_accepted h
  have hpos : 0 < kTargetLength := by decide
  obtain ⟨m, hm⟩ := delivers_eventually Params.small h (List.mem_singleton_self _) E hE hfair 0 (by
    rw [← hconserves]
    simp only [List.length_append, List.length_replicate, List.length_singleton]
    omega)
  refine ⟨E, m, ?_, ?_⟩
  · rw [hE]
    rfl
  · rw [hE]
    apply hm

end Pipeline
