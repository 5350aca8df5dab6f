import PipeAI.Pipeline.Progress

/-!
# Pipelines at rest

A pipeline is at rest when no thread that is in the middle of something can take a step: all of
them wait.  A started pipeline at rest has nothing left to do.  Every call has returned, the three
workers wait for their input, the queues are empty, the result of every complete block of samples
has been delivered, and the samples after the last one are in the buffer (`settled_of_atRest`).
-/

namespace Pipeline

variable {σ K : Type} [Field K] [LinearOrder K] [DecidableEq σ] {P : Params K}

/-! ### States at rest -/

omit [Field K] [LinearOrder K] [DecidableEq σ] in
/-- A thread that is in no call of a queue waits in none. -/
theorem Synced.not_waits_of_calling {s : State σ K} (h : Synced s) {t : Thread σ}
    (hcalling : s.core.calling t = none) :
  ¬ s.Waits t
  := by
  obtain ⟨hraw, htensor, hresult⟩ := h.idle_of_calling hcalling
  rintro (⟨op, hop⟩ | ⟨op, hop⟩ | ⟨op, hop⟩)
  · cases hop.symm.trans hraw
  · cases hop.symm.trans htensor
  · cases hop.symm.trans hresult

/-- No thread that is in the middle of something, and waits in no queue, can take a step. -/
def State.AtRest (P : Params K) (s : State σ K) : Prop :=
  ∀ t, s.Active t → ¬ (system σ P).Enabled t s

/-- At rest, no signal of a push is pending. -/
theorem State.AtRest.not_notifies {s : State σ K} (h : s.AtRest P)
    (hs : (system σ P).Reachable s) (k : Stage) (t : Thread σ) :
  ¬ s.NotifiesInput k t
  := by
  intro hn
  apply h t ((synced_of_reachable hs).active_of_notifies hn) (enabled_of_notifies hs hn)

/-- At rest, the threads of the workers wait while the pipeline is up. -/
theorem State.AtRest.waits {s : State σ K} (h : s.AtRest P) (hs : (system σ P).Reachable s)
    (hup : s.core.Up) (k : Stage) :
  s.Waits (.stage k)
  := by
  by_contra hw
  apply h (.stage k) ⟨hw, by simp, by simp⟩
  apply enabled_of_awake hs hw (alive_of_up hs hup k)

/-- At rest, no call of `start` is in progress while the pipeline is up. -/
theorem State.AtRest.control {s : State σ K} (h : s.AtRest P) (hs : (system σ P).Reachable s)
    (hup : s.core.Up) :
  s.core.control = .idle
  := by
  by_contra hne
  have hcalling : s.core.calling .control = none := by
    rw [Core.calling]
    cases hp : s.core.control with
    | closing k => apply absurd (Or.inr (by rw [hp]; trivial)) hup.2
    | _ => rfl
  have hidle := (synced_of_reachable hs).not_internal hcalling
  have hw := (synced_of_reachable hs).not_waits_of_calling hcalling
  apply h .control ⟨hw, fun _ => hne, by simp⟩
  cases hp : s.core.control with
  | idle => apply absurd hp hne
  | starting k ok =>
      have hr : (s.core.worker k).running = true := running_of_up hs hup k
      exact ⟨_, .tau (ControlStep.startLoses hp hr)⟩
  | assigning k ok => apply absurd hp (not_assigning_of_up hs hup k ok)
  | _ =>
      apply absurd (Or.inr _) hup.2
      rw [hp]
      trivial

/-! ### What a pipeline at rest looks like -/

/-- A thread that is in a call of `submit`, and does not wait in it, can take a step. -/
theorem submitter_enabled {s : State σ K} (h : (system σ P).Reachable s) {i : σ}
    {sample : RawSample K} (hi : s.core.submitting i = some sample)
    (hw : ¬ (s.raw_queue.phase (.submitter i)).Waits) :
  (system σ P).Enabled (.submitter i) s
  := by
  have hcall := (synced_of_reachable h).raw (.submitter i)
  rw [Core.rawCall, Core.calling, hi] at hcall
  obtain ⟨q, hq⟩ | ⟨r, hphase, hreturns⟩ :=
    BlockingQueue.enabled_of_awake ((rawProjection σ P).reachable h) hw hcall
  · exact ⟨_, .raw hq⟩
  · obtain ⟨accepted, rfl⟩ := BlockingQueue.eq_pushed_of_returns hreturns
    exact ⟨_, .rawReturn (SubmitStep.submitReturns hi) hphase⟩

omit [Field K] [LinearOrder K] [DecidableEq σ] in
/-- A thread that is in a call of `submit` waits in no queue but the raw one. -/
theorem Synced.submitter_waits {s : State σ K} (h : Synced s) {i : σ}
    (hw : s.Waits (.submitter i)) :
  (s.raw_queue.phase (.submitter i)).Waits
  := by
  obtain hw | ⟨op, hop⟩ | ⟨op, hop⟩ := hw
  · apply hw
  · obtain ⟨input, ht, -⟩ | ⟨ht, -⟩ | ⟨ht, -⟩ :=
      Core.tensorCall_cases ((h.tensor _).of_before (by rw [hop]; rfl)) <;> cases ht
  · obtain ⟨result, ht, -⟩ | ⟨ht, -⟩ | ⟨ht, -⟩ :=
      Core.resultCall_cases ((h.result _).of_before (by rw [hop]; rfl)) <;> cases ht

/-- At rest, a call of `submit` waits. -/
theorem State.AtRest.submitter_waits {s : State σ K} (h : s.AtRest P)
    (hs : (system σ P).Reachable s) {i : σ} {sample : RawSample K}
    (hi : s.core.submitting i = some sample) :
  (s.raw_queue.phase (.submitter i)).Waits
  := by
  by_contra hw
  apply h (.submitter i) _ (submitter_enabled hs hi hw)
  refine ⟨fun hwaits => hw ((synced_of_reachable hs).submitter_waits hwaits), by simp, ?_⟩
  rintro j ⟨⟩
  rw [hi]
  simp

/-- At rest, all complete blocks have been delivered while the pipeline is up. -/
theorem State.AtRest.delivered [Fintype σ] {s : State σ K} (h : s.AtRest P)
    (hs : (system σ P).Reachable s) (hup : s.core.Up) :
  s.blocks ≤ s.core.callbacks.length
  := by
  by_contra hlt
  have haccepted : (s.core.callbacks.length + 1) * kTargetLength ≤ s.acceptedCount .preprocess := by
    rw [← Nat.le_div_iff_mul_le (by decide)]
    apply Nat.lt_of_not_le hlt
  have hawaiting : Awaiting P s.core.callbacks.length s := ⟨hs, hup, le_refl _, haccepted⟩
  obtain ⟨t, ht⟩ := hawaiting.exists_helpful
  obtain ⟨hactive, henabled⟩ := hawaiting.enabled ht
  apply h t hactive henabled

/-- Where all complete blocks have been delivered, all have been formed, the second and the third
queue are empty, and no stage offers a value, while the pipeline is up. -/
theorem nothing_of_delivered {s : State σ K} (hs : (system σ P).Reachable s) (hup : s.core.Up)
    (hdelivered : s.blocks ≤ s.core.callbacks.length) :
  (s.core.callbacks.length = s.blocks ∧ s.core.windows.length = s.blocks)
    ∧ (s.tensor_queue.shared.queue = [] ∧ s.result_queue.shared.queue = [])
    ∧ s.firstOutput P = [] ∧ s.secondOutput = []
  := by
  obtain ⟨hblocks, htensors, hresults⟩ := counts_of_reachable hs
  obtain ⟨hresult, htensor⟩ := counts_of_up hs hup
  have hwindows := windows_of_up hs hup
  have hle : s.core.windows.length ≤ s.blocks := by
    have hsamples := length_accepted_samples hs
    rw [State.blocks, Nat.le_div_iff_mul_le (by decide), State.acceptedCount]
    omega
  simp only [State.acceptedCount] at hblocks htensors hresults
  simp only [← List.length_eq_zero_iff]
  omega

/-- At rest, the stages wait for their input while the pipeline is up. -/
theorem State.AtRest.waitsForInput [Fintype σ] {s : State σ K} (h : s.AtRest P)
    (hs : (system σ P).Reachable s) (hup : s.core.Up) (k : Stage) :
  s.WaitsForInput k
  := by
  have hsynced := synced_of_reachable hs
  obtain ⟨-, -, hfirst, hsecond⟩ := nothing_of_delivered hs hup (h.delivered hs hup)
  obtain ⟨op, hop⟩ | ⟨op, hop⟩ | ⟨op, hop⟩ := h.waits hs hup k
  · have hv : (s.raw_queue.phase (.stage k)).view = .before op := by rw [hop]; rfl
    obtain ⟨ht, -, rfl⟩ | ⟨ht, -⟩ | ⟨i, sample, ht, -⟩ :=
      Core.rawCall_cases ((hsynced.raw _).of_before hv)
    · cases ht
      apply hop
    · cases ht
    · cases ht
  · have hv : (s.tensor_queue.phase (.stage k)).view = .before op := by rw [hop]; rfl
    obtain ⟨input, ht, -, rfl⟩ | ⟨ht, -, rfl⟩ | ⟨ht, -⟩ :=
      Core.tensorCall_cases ((hsynced.tensor _).of_before hv)
    · cases ht
      rw [State.firstOutput, hv] at hfirst
      cases hfirst
    · cases ht
      apply hop
    · cases ht
  · have hv : (s.result_queue.phase (.stage k)).view = .before op := by rw [hop]; rfl
    obtain ⟨result, ht, -, rfl⟩ | ⟨ht, -, rfl⟩ | ⟨ht, -⟩ :=
      Core.resultCall_cases ((hsynced.result _).of_before hv)
    · cases ht
      rw [State.secondOutput, hv] at hsecond
      cases hsecond
    · cases ht
      apply hop
    · cases ht

/-- At rest, the raw queue is empty while the pipeline is up. -/
theorem State.AtRest.raw_empty [Fintype σ] {s : State σ K} (h : s.AtRest P)
    (hs : (system σ P).Reachable s) (hup : s.core.Up) :
  s.raw_queue.shared.queue = []
  := by
  by_contra hne
  obtain ⟨hraw, -, -⟩ := queues_reachable hs
  obtain ⟨t, ht⟩ := BlockingQueue.exists_notifies hraw (open_of_up hs hup).1
    (synced_of_reachable hs).rawPops (h.waitsForInput hs hup .preprocess) hne
  apply h.not_notifies hs .preprocess t ht

/-- At rest, no call of `submit` is in progress while the pipeline is up: it would wait for room
that there is, and the signal that wakes it has still to be sent. -/
theorem State.AtRest.submitting [Fintype σ] {s : State σ K} (h : s.AtRest P)
    (hs : (system σ P).Reachable s) (hup : s.core.Up) (i : σ) :
  s.core.submitting i = none
  := by
  have hsynced := synced_of_reachable hs
  obtain ⟨hraw, -, -⟩ := queues_reachable hs
  cases hi : s.core.submitting i with
  | none => rfl
  | some sample =>
      exfalso
      obtain ⟨op, hop⟩ := h.submitter_waits hs hi
      have hpush : op = .push sample := by
        obtain ⟨ht, -⟩ | ⟨ht, -⟩ | ⟨j, sample', ht, hj, rfl⟩ :=
          Core.rawCall_cases ((hsynced.raw _).of_before (by rw [hop]; rfl))
        · cases ht
        · cases ht
        · cases ht
          cases hi.symm.trans hj
          rfl
      subst hpush
      have hwaits : (BlockingQueue.monitor _).WaitsOn .notFull
          (s.raw_queue.phase (.submitter i)) := by
        rw [hop]
        rfl
      have hroom : 0 < BlockingQueue.supplyCount .notFull s.raw_queue.shared := by
        rw [BlockingQueue.supplyCount, h.raw_empty hs hup]
        apply s.raw_queue.shared.capacity_pos
      obtain ⟨u, ⟨op, r, pending, hu, hmem, hsuffix⟩ | ⟨op, b, hu, hcond⟩⟩ :=
        BlockingQueue.signal_of_waiting hraw (open_of_up hs hup).1 hwaits hroom
      · obtain ⟨⟨value, rfl⟩, -⟩ := BlockingQueue.eq_popped_of_one_mem hsuffix hmem
        obtain ⟨op', hcall, hreturns⟩ := (hsynced.raw u).of_after (by rw [hu]; rfl)
        have hpre : s.raw_queue.phase (.stage .preprocess) = .waiting .pop :=
          h.waitsForInput hs hup .preprocess
        obtain ⟨rfl, -, -⟩ | ⟨-, -, rfl⟩ | ⟨j, sample', -, -, rfl⟩ := Core.rawCall_cases hcall
        · cases hpre.symm.trans hu
        · cases BlockingQueue.eq_pop_of_returns (Or.inr (Or.inl rfl)) hreturns
        · cases BlockingQueue.eq_pop_of_returns (Or.inr (Or.inr ⟨_, rfl⟩)) hreturns
      · obtain ⟨rfl, -, rfl⟩ | ⟨-, -, rfl⟩ | ⟨j, sample', rfl, hj, rfl⟩ :=
          Core.rawCall_cases ((hsynced.raw u).of_before (by rw [hu]; rfl))
        · cases hcond
        · cases hcond
        · obtain ⟨op, hop'⟩ := h.submitter_waits hs hj
          cases hu.symm.trans hop'

omit [DecidableEq σ] [Field K] [LinearOrder K] in
/-- A thread alone in the empty queue that has called `pop` waits. -/
theorem waits_empty {τ T : Type} [DecidableEq τ] (capacity : ℕ) (h : 0 < capacity) (t : τ)
    (log : List (τ × BlockingQueue.Op T × BlockingQueue.Ret T)) :
  (BlockingQueue.monitor T).Internal (Monitor.alone (.empty T capacity h) t (.entering .pop) log) t
    (Monitor.alone (.empty T capacity h) t (.waiting .pop) log)
  := by
  have hstep : (BlockingQueue.monitor T).Internal
      (Monitor.alone (.empty T capacity h) t (.entering .pop) log) t
      ((Monitor.alone (.empty T capacity h) t (.entering .pop) log).setPhase t (.waiting .pop)) :=
    Monitor.Internal.block (Or.inl (Monitor.alone_phase_self ..)) rfl
  rwa [Monitor.alone_setPhase] at hstep

/-- Where the workers are before their calls of `pop`, no other thread is in a call, and the queues
are empty, the three workers call `pop`, and the pipeline is at rest. -/
theorem Quiet.rest {c : Core σ K} (h : Quiet P c) (hc : c.Ready) :
  ∃ s, (system σ P).Reachable s ∧ s.AtRest P
    ∧ s.core = { c with preprocess := .popping, inference := .popping, post := .popping }
  := by
  obtain ⟨rawLog, tensorLog, resultLog, h⟩ := h
  have h₁ := h.step (Step.rawCall (t := .stage .preprocess)
    (PreprocessStep.callPop hc.preprocess) rfl)
  have h₂ := h₁.step (Step.raw (waits_empty ..))
  have h₃ := h₂.step (Step.tensorCall (t := .stage .inference)
    (InferenceStep.callPop hc.inference) rfl)
  have h₄ := h₃.step (Step.tensor (waits_empty ..))
  have h₅ := h₄.step (Step.resultCall (t := .stage .post) (PostStep.callPop hc.post) rfl)
  have h₆ := h₅.step (Step.result (waits_empty ..))
  refine ⟨_, h₆, ?_, rfl⟩
  rintro t ⟨hw, hcontrol, hsubmitting⟩ -
  rcases t with (_ | _ | _) | _ | i
  · apply hw
    left
    exact ⟨.pop, Monitor.alone_phase_self ..⟩
  · apply hw
    right
    left
    exact ⟨.pop, Monitor.alone_phase_self ..⟩
  · apply hw
    right
    right
    exact ⟨.pop, Monitor.alone_phase_self ..⟩
  · apply hcontrol rfl hc.control
  · apply hsubmitting i rfl (hc.submitting i)

/-- A started pipeline that has delivered a window, and is at rest. -/
theorem exists_atRest_window :
  ∃ s : State Unit ℚ, (system Unit Params.small).Reachable s
    ∧ .started true ∈ s.core.lifecycle ∧ ¬ s.core.StopCalled ∧ s.AtRest Params.small
    ∧ s.core.callbacks.length = 1
  := by
  obtain ⟨input, htensor, hw⟩ := exists_quiet_afterWindow
  obtain ⟨s, hs, hrest, hcore⟩ := hw.rest (ready_afterWindow input)
  refine ⟨s, hs, ?_, ?_, hrest, ?_⟩
  · rw [hcore]
    apply List.mem_singleton_self
  · rw [hcore]
    rintro (hmem | hin)
    · cases List.mem_singleton.mp hmem
    · cases hin
  · rw [hcore]
    rfl

/-- A started pipeline comes to rest only when it has nothing left to do.  In every reachable state
at rest in which `start` has returned true and `stop` has not been called, no call of `start` or
`submit` is in progress, the three workers wait for their input, all queues are empty, the callback
has been given the results of all complete blocks of the samples accepted, and the buffer has
exactly the samples after the last complete block.  In particular no interleaving deadlocks, and
no signal is lost: with bounded queues between the stages, submitters included. -/
theorem settled_of_atRest (P : Params K) [Fintype σ] {s : State σ K}
    (h : (system σ P).Reachable s) (hstarted : .started true ∈ s.core.lifecycle)
    (hnot : ¬ s.core.StopCalled) (hrest : s.AtRest P) :
  (s.core.control = .idle ∧ (∀ i, s.core.submitting i = none) ∧ ∀ k, s.WaitsForInput k)
    ∧ (s.raw_queue.shared.queue = [] ∧ s.tensor_queue.shared.queue = []
      ∧ s.result_queue.shared.queue = [])
    ∧ s.core.callbacks.length = s.blocks
    ∧ s.core.window_buffer
      = (BlockingQueue.accepted s.raw_queue.log).drop (s.blocks * kTargetLength)
  := by
  have hup : s.core.Up := ⟨hstarted, hnot⟩
  obtain ⟨⟨hdelivered, hformed⟩, ⟨htensor, hresult⟩, -, -⟩ :=
    nothing_of_delivered h hup (hrest.delivered h hup)
  have hraw := hrest.raw_empty h hup
  have hwaits := hrest.waitsForInput h hup
  refine ⟨⟨hrest.control h hup, hrest.submitting h hup, hwaits⟩, ⟨hraw, htensor, hresult⟩,
    hdelivered, ?_⟩
  have hconserves := samples_eq_accepted h
  have hwindows := (forming_of_reachable h).windows
  have hpre : s.raw_queue.phase (.stage .preprocess) = .waiting .pop := hwaits .preprocess
  have hpc : s.core.preprocess = .popping := by
    obtain ⟨-, hp, -⟩ | ⟨ht, -⟩ | ⟨i, sample, ht, -⟩ :=
      Core.rawCall_cases (((synced_of_reachable h).raw _).of_before (by rw [hpre]; rfl))
    · apply hp
    · cases ht
    · cases ht
  have hbefore : (s.raw_queue.phase (.stage .preprocess)).view = .before .pop := by
    rw [hpre]
    rfl
  have hhand : s.inHand = [] := (first_of_before (P := P) (synced_of_reachable h) hpc hbefore).2
  have hlen : s.core.windows.flatten.length = s.blocks * kTargetLength := by
    rw [List.length_flatten, List.map_congr_left hwindows, List.map_const', List.sum_replicate,
      smul_eq_mul, hformed]
  rw [← hconserves, hhand, hraw, List.append_nil, List.append_nil, ← hlen, List.drop_left]

/-- The theorem after a window has been delivered. -/
theorem settled_of_atRest_window :
  ∃ s : State Unit ℚ, s.core.control = .idle ∧ s.raw_queue.shared.queue = []
    ∧ s.core.callbacks.length = s.blocks ∧ s.blocks = 1
    ∧ s.core.window_buffer
      = (BlockingQueue.accepted s.raw_queue.log).drop (s.blocks * kTargetLength)
  := by
  obtain ⟨s, h, hstarted, hnot, hrest, hone⟩ := exists_atRest_window
  obtain ⟨⟨hcontrol, -, -⟩, ⟨hraw, -, -⟩, hdelivered, hbuffer⟩ :=
    settled_of_atRest Params.small h hstarted hnot hrest
  exact ⟨s, hcontrol, hraw, hdelivered, hdelivered.symm.trans hone, hbuffer⟩

end Pipeline
