import PipeAI.Pipeline.Liveness

/-!
# Submissions

Where only one thread calls `submit`, no call of it waits for ever: as long as `stop` is not called,
the sample is accepted, in every fair execution (`Submitting.accepts`), and the call returns
(`submit_returns`).  Where several threads do, one of them may find the room taken again and again.

Once the complete blocks have been delivered, the first stage takes the samples in the raw queue
without waiting (`Submitting.preprocess_awake`); and once the queue is empty, the thread that
submits has been woken, or is woken by the next step of the first stage
(`Submitting.popped`).
-/

namespace Pipeline

variable {K : Type} [Field K] [LinearOrder K] {P : Params K}

/-! ### The thread that submits -/

omit [Field K] [LinearOrder K] in
/-- Where only one thread calls `submit`, only it pushes to the raw queue. -/
theorem Synced.rawPushes {s : State Unit K} (h : Synced s) :
  BlockingQueue.OnlyPushes s.raw_queue (.submitter ())
  := by
  intro t op value hv hop
  obtain ⟨-, -, rfl⟩ | ⟨-, -, rfl⟩ | ⟨i, sample, rfl, -, rfl⟩ :=
    Core.rawCall_cases ((h.raw t).of_before hv)
  · cases hop
  · cases hop
  · cases hop
    exact ⟨rfl, rfl⟩

/-- The pipeline is up, the complete blocks accepted have been delivered, and the only thread that
submits is before the push of its sample. -/
structure Submitting (P : Params K) (sample : RawSample K) (s : State Unit K) : Prop where
  reachable : (system Unit P).Reachable s
  up : s.core.Up
  before : (s.raw_queue.phase (.submitter ())).view = .before (.push sample)
  delivered : s.blocks ≤ s.core.callbacks.length

variable {sample : RawSample K}

/-- The first stage finds a value to pop, and room for what it pushes, while there are samples in
the raw queue. -/
theorem Submitting.ready {s : State Unit K} (h : Submitting P sample s)
    (hne : s.raw_queue.shared.queue ≠ []) :
  s.ReadyAt .preprocess
  := by
  have hsynced := synced_of_reachable h.reachable
  obtain ⟨-, -, hfirst, -⟩ := nothing_of_delivered h.reachable h.up h.delivered
  refine ⟨?_, ?_, ?_⟩
  · intro op hv
    obtain ⟨-, -, rfl⟩ | ⟨ht, -⟩ | ⟨i, sample, ht, -⟩ :=
      Core.rawCall_cases ((hsynced.raw _).of_before hv)
    · apply BlockingQueue.ready_pop_of_ne_nil hne
    · cases ht
    · cases ht
  · intro op hv
    obtain ⟨input, -, -, rfl⟩ | ⟨ht, -⟩ | ⟨ht, -⟩ :=
      Core.tensorCall_cases ((hsynced.tensor _).of_before hv)
    · rw [State.firstOutput, hv] at hfirst
      cases hfirst
    · cases ht
    · cases ht
  · intro op hv
    obtain ⟨result, ht, -⟩ | ⟨ht, -⟩ | ⟨ht, -⟩ :=
      Core.resultCall_cases ((hsynced.result _).of_before hv) <;> cases ht

/-- The first stage does not wait while there are samples in the raw queue: no signal for it is
pending. -/
theorem Submitting.preprocess_awake {s : State Unit K} (h : Submitting P sample s)
    (hne : s.raw_queue.shared.queue ≠ []) :
  ¬ s.Waits (.stage .preprocess)
  := by
  have hsynced := synced_of_reachable h.reachable
  obtain ⟨hraw, -, -⟩ := queues_reachable h.reachable
  obtain ⟨-, -, hfirst, -⟩ := nothing_of_delivered h.reachable h.up h.delivered
  rintro (⟨op, hop⟩ | ⟨op, hop⟩ | ⟨op, hop⟩)
  · obtain ⟨-, -, rfl⟩ | ⟨ht, -⟩ | ⟨i, sample, ht, -⟩ :=
      Core.rawCall_cases ((hsynced.raw _).of_before (by rw [hop]; rfl))
    · obtain ⟨u, hu⟩ := BlockingQueue.exists_notifies hraw (open_of_up h.reachable h.up).1
        hsynced.rawPops hop hne
      have hu : s.raw_queue.phase u = .leaving (.pushed true) [.one .notEmpty] := hu
      obtain ⟨op, hcall, hreturns⟩ := (hsynced.raw u).of_after (by rw [hu]; rfl)
      obtain ⟨-, -, rfl⟩ | ⟨-, -, rfl⟩ | ⟨i, sample, rfl, -⟩ := Core.rawCall_cases hcall
      · obtain ⟨value, hvalue⟩ := BlockingQueue.eq_popped_of_returns hreturns
        cases hvalue
      · obtain ⟨q, q', hc⟩ := hreturns
        cases BlockingQueue.Outcome.of_commits hc with
        | accepts hpush => cases hpush
      · have hv := h.before
        rw [hu] at hv
        cases hv
    · cases ht
    · cases ht
  · have hv : (s.tensor_queue.phase (.stage .preprocess)).view = .before op := by rw [hop]; rfl
    obtain ⟨input, -, -, rfl⟩ | ⟨ht, -⟩ | ⟨ht, -⟩ :=
      Core.tensorCall_cases ((hsynced.tensor _).of_before hv)
    · rw [State.firstOutput, hv] at hfirst
      cases hfirst
    · cases ht
    · cases ht
  · obtain ⟨result, ht, -⟩ | ⟨ht, -⟩ | ⟨ht, -⟩ :=
      Core.resultCall_cases ((hsynced.result _).of_before (by rw [hop]; rfl)) <;> cases ht

/-- Where the thread waits though the raw queue is empty, the first stage has taken a sample, and has
still to send its signal. -/
theorem Submitting.popped {s : State Unit K} (h : Submitting P sample s)
    (hnil : s.raw_queue.shared.queue = [])
    (hw : s.raw_queue.phase (.submitter ()) = .waiting (.push sample)) :
  ∃ value, s.raw_queue.phase (.stage .preprocess)
    = .leaving (.popped (some value)) [.one .notFull]
  := by
  have hsynced := synced_of_reachable h.reachable
  obtain ⟨hraw, -, -⟩ := queues_reachable h.reachable
  have hroom : s.raw_queue.shared.queue.length < s.raw_queue.shared.capacity := by
    rw [hnil]
    apply s.raw_queue.shared.capacity_pos
  obtain ⟨u, value, hu⟩ := BlockingQueue.exists_popped hraw (open_of_up h.reachable h.up).1
    hsynced.rawPushes hw hroom
  obtain ⟨op, hcall, hreturns⟩ := (hsynced.raw u).of_after (by rw [hu]; rfl)
  obtain ⟨rfl, -, -⟩ | ⟨-, -, rfl⟩ | ⟨i, pushed, -, -, rfl⟩ := Core.rawCall_cases hcall
  · exact ⟨value, hu⟩
  · cases BlockingQueue.eq_pop_of_returns (Or.inr (Or.inl rfl)) hreturns
  · cases BlockingQueue.eq_pop_of_returns (Or.inr (Or.inr ⟨_, rfl⟩)) hreturns

/-! ### Steps on the way to the push -/

omit [Field K] [LinearOrder K] in
/-- What there is to do until there is progress: for the first stage while there are samples in the
raw queue, and else for the thread that submits to be woken. -/
def State.hurdle (s : State Unit K) : ℕ :=
  if s.raw_queue.shared.queue.length = 0 then
    BlockingQueue.patience (s.raw_queue.phase (.submitter ()))
  else s.distance .preprocess

omit [Field K] [LinearOrder K] in
/-- The thread that has to take the next step: the one that submits, once the raw queue is empty and
it has been woken. -/
def State.provider (s : State Unit K) : Thread Unit :=
  if s.raw_queue.shared.queue.length
    + BlockingQueue.patience (s.raw_queue.phase (.submitter ())) = 0 then .submitter ()
  else .stage .preprocess

omit [Field K] [LinearOrder K] in
theorem State.provider_cases (s : State Unit K) :
  (s.raw_queue.shared.queue ≠ [] ∧ s.provider = .stage .preprocess
      ∧ s.hurdle = s.distance .preprocess)
    ∨ (s.raw_queue.shared.queue = [] ∧ (s.raw_queue.phase (.submitter ())).Waits
      ∧ s.provider = .stage .preprocess ∧ s.hurdle = 1)
    ∨ (s.raw_queue.shared.queue = [] ∧ ¬ (s.raw_queue.phase (.submitter ())).Waits
      ∧ s.provider = .submitter () ∧ s.hurdle = 0)
  := by
  rw [State.provider, State.hurdle]
  by_cases hnil : s.raw_queue.shared.queue = []
  · right
    by_cases hw : (s.raw_queue.phase (.submitter ())).Waits
    · left
      obtain ⟨op, hop⟩ := hw
      refine ⟨hnil, ⟨op, hop⟩, ?_, ?_⟩ <;> simp [hnil, hop, BlockingQueue.patience]
    · right
      refine ⟨hnil, hw, ?_, ?_⟩ <;> simp [hnil, BlockingQueue.patience_eq_zero hw]
  · left
    have hlen : s.raw_queue.shared.queue.length ≠ 0 := by simpa using hnil
    refine ⟨hnil, ?_, ?_⟩
    · rw [if_neg (by omega)]
    · rw [if_neg hlen]

/-- The sample of the call in progress. -/
theorem Submitting.submitting {s : State Unit K} (h : Submitting P sample s) :
  s.core.submitting () = some sample
  := by
  obtain ⟨ht, -⟩ | ⟨ht, -⟩ | ⟨i, pushed, -, hp, hop⟩ :=
    Core.rawCall_cases (((synced_of_reachable h.reachable).raw _).of_before h.before)
  · cases ht
  · cases ht
  · cases hop
    apply hp

/-- The thread that waits does so for the push of its sample. -/
theorem Submitting.waiting {s : State Unit K} (h : Submitting P sample s)
    (hw : (s.raw_queue.phase (.submitter ())).Waits) :
  s.raw_queue.phase (.submitter ()) = .waiting (.push sample)
  := by
  obtain ⟨op, hop⟩ := hw
  have hv := h.before
  rw [hop, Monitor.Phase.view_waiting] at hv
  cases hv
  apply hop

/-- The thread that has to take the next step can take one. -/
theorem Submitting.enabled {s : State Unit K} (h : Submitting P sample s) :
  s.Active s.provider ∧ (system Unit P).Enabled s.provider s
  := by
  have hsynced := synced_of_reachable h.reachable
  have hstage : ¬ s.Waits (.stage .preprocess) →
      s.Active (.stage .preprocess) ∧ (system Unit P).Enabled (.stage .preprocess) s := by
    intro hw
    exact ⟨⟨hw, by simp, by simp⟩,
      enabled_of_awake h.reachable hw (alive_of_up h.reachable h.up .preprocess)⟩
  obtain ⟨hne, hprovider, -⟩ | ⟨hnil, hw, hprovider, -⟩ | ⟨hnil, hw, hprovider, -⟩ :=
    s.provider_cases
  · rw [hprovider]
    apply hstage (h.preprocess_awake hne)
  · rw [hprovider]
    apply hstage
    obtain ⟨value, hp⟩ := h.popped hnil (h.waiting hw)
    obtain ⟨h₁, h₂⟩ | ⟨h₁, -⟩ | ⟨h₁, -⟩ := hsynced.idle_elsewhere (.stage .preprocess)
    · rintro (⟨op, hop⟩ | ⟨op, hop⟩ | ⟨op, hop⟩)
      · cases hop.symm.trans hp
      · cases hop.symm.trans h₁
      · cases hop.symm.trans h₂
    · cases h₁.symm.trans hp
    · cases h₁.symm.trans hp
  · rw [hprovider]
    refine ⟨⟨fun hwaits => hw (hsynced.submitter_waits hwaits), by simp, ?_⟩,
      submitter_enabled h.reachable h.submitting hw⟩
    rintro i -
    rw [h.submitting]
    simp

/-- Where the raw queue is empty and the thread waits, a step of the first stage wakes it. -/
theorem Submitting.wakes {s s' : State Unit K} (h : Submitting P sample s)
    (hnil : s.raw_queue.shared.queue = []) (hw : (s.raw_queue.phase (.submitter ())).Waits)
    (hstep : Step P s (.stage .preprocess) s') :
  s'.raw_queue.phase (.submitter ()) = .woken (.push sample) false
  := by
  have hsynced := synced_of_reachable h.reachable
  obtain ⟨value, hp⟩ := h.popped hnil (h.waiting hw)
  obtain ⟨htensor, hresult⟩ : s.tensor_queue.phase (.stage .preprocess) = .idle
      ∧ s.result_queue.phase (.stage .preprocess) = .idle := by
    obtain hidle | ⟨hidle, -⟩ | ⟨hidle, -⟩ := hsynced.idle_elsewhere (.stage .preprocess)
    · apply hidle
    · cases hidle.symm.trans hp
    · cases hidle.symm.trans hp
  obtain ⟨a, hc, hx₁, hx₂, hx₃⟩ | ⟨-, ⟨hq, -⟩ | ⟨hq, -⟩ | ⟨hq, -⟩⟩ := hstep.cases
  · have hcalling : s.core.calling (.stage .preprocess) ≠ none := by
      intro hnone
      have hraw := hsynced.raw (.stage .preprocess)
      rw [Core.rawCall, hnone] at hraw
      have hraw : s.raw_queue.phase (.stage .preprocess) = .idle := hraw
      cases hraw.symm.trans hp
    cases a with
    | tau => apply absurd (hc.calling_of_tau (running_of_up h.reachable h.up)) hcalling
    | call x => apply absurd hc.calls.allowed hcalling
    | ret r =>
        cases r with
        | raw r => cases hp.symm.trans hx₁.1
        | tensor r => cases htensor.symm.trans hx₂.1
        | result r => cases hresult.symm.trans hx₃.1
  · apply BlockingQueue.wakes_of_popped hp hsynced.rawPushes (h.waiting hw) hq
  · apply absurd htensor hq.ne_idle
  · apply absurd hresult hq.ne_idle

omit [Field K] [LinearOrder K] in
/-- The thread that is inside of the raw queue is in no other queue. -/
theorem Synced.submitter_elsewhere {s : State Unit K} (h : Synced s)
    (hne : s.raw_queue.phase (.submitter ()) ≠ .idle) :
  s.tensor_queue.phase (.submitter ()) = .idle ∧ s.result_queue.phase (.submitter ()) = .idle
  := by
  obtain hidle | ⟨hidle, -⟩ | ⟨hidle, -⟩ := h.idle_elsewhere (.submitter ())
  · apply hidle
  · apply absurd hidle hne
  · apply absurd hidle hne

/-- Where the thread does not wait, and there is room, its next step is progress. -/
theorem Submitting.not_still {s s' : State Unit K} (h : Submitting P sample s)
    (hnil : s.raw_queue.shared.queue = []) (hstep : Step P s (.submitter ()) s')
    (hstill : Still s s') (hw : ¬ (s.raw_queue.phase (.submitter ())).Waits) :
  False
  := by
  have hsynced := synced_of_reachable h.reachable
  have hne : s.raw_queue.phase (.submitter ()) ≠ .idle := by
    intro hidle
    have hv := h.before
    rw [hidle] at hv
    cases hv
  obtain ⟨htensor, hresult⟩ := hsynced.submitter_elsewhere hne
  obtain ⟨a, hc, hx, -, -⟩ | ⟨-, ⟨hq, -⟩ | ⟨hq, -⟩ | ⟨hq, -⟩⟩ := hstep.cases
  · generalize s'.core = c' at hc
    cases hc with
    | submit hp => cases hp.symm.trans h.submitting
    | submitReturns hp =>
        have hv := h.before
        rw [hx.1] at hv
        cases hv
  · have hsilent := BlockingQueue.silent_of_log hq hstill.raw.2
    have hroom : s.raw_queue.shared.queue.length < s.raw_queue.shared.capacity := by
      rw [hnil]
      apply s.raw_queue.shared.capacity_pos
    have hready := (BlockingQueue.push_of_room (open_of_up h.reachable h.up).1 hroom sample).1
    have hlt := BlockingQueue.work_lt_of_silent (by
      intro op hv
      cases h.before.symm.trans hv
      exact ⟨Or.inr (Or.inr ⟨_, rfl⟩), hready⟩) hsilent hq
    rw [BlockingQueue.work_of_before h.before,
      BlockingQueue.work_of_before ((hsilent.view _).trans h.before),
      BlockingQueue.patience_eq_zero hw] at hlt
    omega
  · apply hq.ne_idle htensor
  · apply hq.ne_idle hresult

/-- A step without progress leaves the thread before its push; and the one that has to take the next
step has less to do, or it was not its step, and nothing is lost. -/
theorem Submitting.step {s s' : State Unit K} {t : Thread Unit} (h : Submitting P sample s)
    (hstep : Step P s t s') (hstill : Still s s') (hup : s'.core.Up) :
  Submitting P sample s' ∧ (s'.hurdle < s.hurdle
    ∨ t ≠ s.provider ∧ s'.hurdle = s.hurdle ∧ s'.provider = s.provider)
  := by
  have hreach := h.reachable.step hstep
  have h' : Submitting P sample s' := by
    refine ⟨hreach, hup, ?_, ?_⟩
    · obtain ⟨hv, -⟩ | ⟨-, haccepts⟩ := BlockingQueue.before_or_accepts
        (synced_of_reachable h.reachable).rawPushes h.before (open_of_up hreach hup).1
        hstep.touches.1
      · apply hv
      · rw [hstill.raw.2] at haccepts
        simp at haccepts
    · rw [State.blocks, State.acceptedCount, hstill.raw.2, hstill.callbacks]
      apply h.delivered
  refine ⟨h', ?_⟩
  have hshared : s'.raw_queue.shared = s.raw_queue.shared := hstill.raw.1
  obtain ⟨hne, hprovider, hhurdle⟩ | ⟨hnil, hw, hprovider, hhurdle⟩
    | ⟨hnil, hw, hprovider, hhurdle⟩ := s.provider_cases
  · obtain ⟨-, hprovider', hhurdle'⟩ | ⟨hnil', -⟩ | ⟨hnil', -⟩ := s'.provider_cases
    · rw [hprovider, hprovider', hhurdle, hhurdle']
      by_cases ht : t = .stage .preprocess
      · subst ht
        left
        apply (h.ready hne).distance_lt h.reachable h.up hstep hstill
      · obtain hlt | ⟨heq, -⟩ := distance_of_other h.reachable h.up hup hstep hstill ht
        · exact Or.inl hlt
        · exact Or.inr ⟨ht, heq, rfl⟩
    · rw [hshared] at hnil'
      apply absurd hnil' hne
    · rw [hshared] at hnil'
      apply absurd hnil' hne
  · obtain ⟨hne', -⟩ | ⟨-, hw', hprovider', hhurdle'⟩ | ⟨-, -, -, hhurdle'⟩ := s'.provider_cases
    · rw [hshared] at hne'
      apply absurd hnil hne'
    · right
      rw [hprovider, hprovider', hhurdle, hhurdle']
      refine ⟨?_, rfl, rfl⟩
      rintro rfl
      obtain ⟨op, hop⟩ := hw'
      cases (h.wakes hnil hw hstep).symm.trans hop
    · left
      rw [hhurdle, hhurdle']
      apply Nat.one_pos
  · have ht : t ≠ .submitter () := by
      rintro rfl
      apply h.not_still hnil hstep hstill hw
    have hphase : s'.raw_queue.phase (.submitter ()) = s.raw_queue.phase (.submitter ()) := by
      obtain ⟨x, hx⟩ | hq := hstep.touches.1
      · apply hx.phase_of_ne ht.symm
      · apply hq.phase_of_ne ht.symm hw
    obtain ⟨hne', -⟩ | ⟨-, hw', -⟩ | ⟨-, -, hprovider', hhurdle'⟩ := s'.provider_cases
    · rw [hshared] at hne'
      apply absurd hnil hne'
    · rw [hphase] at hw'
      apply absurd hw' hw
    · right
      rw [hprovider, hprovider', hhurdle, hhurdle']
      exact ⟨ht, rfl, rfl⟩

/-! ### Every call returns -/

omit [Field K] [LinearOrder K] in
/-- A step of another thread leaves the call of `submit`. -/
theorem submitting_of_calls {c c' : Core Unit K} {t : Thread Unit} {a : Action K}
    (h : Calls c t a c') (ht : t ≠ .submitter ()) :
  c'.submitting () = c.submitting ()
  := by
  have hcalling := h.others (.submitter ()) ht.symm
  rw [Core.calling, Core.calling] at hcalling
  apply Option.map_injective _ hcalling
  intro x y hxy
  cases hxy
  rfl

/-- The pipeline is up, and the only thread that submits is in the call of `submit` with the sample:
before its push, when the samples `A` have been accepted, or past it, when its own has been too. -/
structure Calling (P : Params K) (A : List (RawSample K)) (sample : RawSample K)
    (s : State Unit K) : Prop where
  reachable : (system Unit P).Reachable s
  up : s.core.Up
  submitting : s.core.submitting () = some sample
  pushed : ((s.raw_queue.phase (.submitter ())).view = .before (.push sample)
      ∧ BlockingQueue.accepted s.raw_queue.log = A)
    ∨ (s.raw_queue.phase (.submitter ())).view = .after (.pushed true)
      ∧ BlockingQueue.accepted s.raw_queue.log = A ++ [sample]

variable {A : List (RawSample K)}

/-- The call has returned, and its sample has been accepted. -/
def Returned (A : List (RawSample K)) (sample : RawSample K) (s : State Unit K) : Prop :=
  s.core.submitting () = none ∧ BlockingQueue.accepted s.raw_queue.log = A ++ [sample]

/-- With a step, `stop` is called, or the call returns, or it goes on. -/
theorem Calling.step {s s' : State Unit K} {t : Thread Unit} (h : Calling P A sample s)
    (hstep : Step P s t s') :
  (s'.core.StopCalled ∨ Returned A sample s') ∨ Calling P A sample s'
  := by
  by_cases hcalled : s'.core.StopCalled
  · exact Or.inl (Or.inl hcalled)
  · have hreach := h.reachable.step hstep
    have hup := h.up.step hstep hcalled
    have honly := (synced_of_reachable h.reachable).rawPushes
    have hopen := (open_of_up hreach hup).1
    have hpushed : ((s'.raw_queue.phase (.submitter ())).view = .before (.push sample)
        ∧ BlockingQueue.accepted s'.raw_queue.log = A)
        ∨ ((s'.raw_queue.phase (.submitter ())).view = .after (.pushed true)
          ∨ s'.raw_queue.phase (.submitter ()) = .idle)
          ∧ BlockingQueue.accepted s'.raw_queue.log = A ++ [sample] := by
      obtain ⟨hv, hA⟩ | ⟨hv, hA⟩ := h.pushed
      · rw [← hA]
        obtain hbefore | ⟨hafter, haccepted⟩ :=
          BlockingQueue.before_or_accepts honly hv hopen hstep.touches.1
        · exact Or.inl hbefore
        · exact Or.inr ⟨Or.inl hafter, haccepted⟩
      · rw [← hA]
        exact Or.inr (BlockingQueue.after_or_idle honly hv hstep.touches.1)
    have hsubmitting : s'.core.submitting () = some sample ∨ s'.core.submitting () = none := by
      obtain ⟨a, hc, -⟩ | ⟨hcore, -⟩ := hstep.cases
      · by_cases ht : t = .submitter ()
        · subst ht
          generalize s'.core = c' at hc ⊢
          cases hc with
          | submit hp => cases hp.symm.trans h.submitting
          | submitReturns hp =>
              right
              simp
        · rw [submitting_of_calls hc.calls ht]
          exact Or.inl h.submitting
      · rw [hcore]
        exact Or.inl h.submitting
    have hraw := (synced_of_reachable hreach).raw (.submitter ())
    rw [Core.rawCall, Core.calling] at hraw
    obtain hsome | hnone := hsubmitting
    · right
      refine ⟨hreach, hup, hsome, ?_⟩
      obtain hbefore | ⟨hafter | hidle, hA⟩ := hpushed
      · exact Or.inl hbefore
      · exact Or.inr ⟨hafter, hA⟩
      · rw [hsome, hidle] at hraw
        obtain hv | ⟨r, hv, -⟩ := hraw <;> cases hv
    · left
      right
      refine ⟨hnone, ?_⟩
      obtain ⟨hv, -⟩ | ⟨-, hA⟩ := hpushed
      · rw [hnone] at hraw
        have hidle : s'.raw_queue.phase (.submitter ()) = .idle := hraw
        rw [hidle] at hv
        cases hv
      · apply hA

/-- Until `stop` is called or the call returns, it goes on. -/
theorem Calling.going {E : (system Unit P).Execution} {n : ℕ} (h : Calling P A sample (E.state n))
    (hnot : ∀ m, n ≤ m → ¬ ((E.state m).core.StopCalled ∨ Returned A sample (E.state m))) :
  ∀ m, n ≤ m → Calling P A sample (E.state m)
  := by
  intro m hm
  induction m, hm using Nat.le_induction with
  | base => apply h
  | succ m hm ih =>
      have hs := E.step m
      cases hl : E.label m with
      | none =>
          rw [hl] at hs
          rw [hs]
          apply ih
      | some t =>
          rw [hl] at hs
          obtain hdone | hgoing := ih.step hs
          · apply absurd hdone (hnot (m + 1) (Nat.le_succ_of_le hm))
          · apply hgoing

/-- Past its push, the call returns in a fair execution: the thread takes the steps that are left. -/
theorem Calling.returns {E : (system Unit P).Execution} (hE : Fair E) {n : ℕ}
    (h : Calling P A sample (E.state n))
    (hafter : ((E.state n).raw_queue.phase (.submitter ())).view = .after (.pushed true)) :
  ∃ m, n ≤ m ∧ ((E.state m).core.StopCalled ∨ Returned A sample (E.state m))
  := by
  apply E.reaches_of_helpful (fun s => BlockingQueue.work (s.raw_queue.phase (.submitter ())))
    (fun _ t => t = .submitter ()) (C := fun t s => s.Active t)
    (G := fun s => s.core.StopCalled ∨ Returned A sample s)
    (R := fun s => Calling P A sample s
      ∧ (s.raw_queue.phase (.submitter ())).view = .after (.pushed true))
  · intro s t _ _
    apply hE t
  · intro s _
    exact ⟨_, rfl⟩
  · rintro s t ⟨hs, hv⟩ rfl
    have hw : ¬ (s.raw_queue.phase (.submitter ())).Waits := by
      rintro ⟨op, hop⟩
      rw [hop] at hv
      cases hv
    refine ⟨⟨fun hwaits => hw ((synced_of_reachable hs.reachable).submitter_waits hwaits),
      by simp, ?_⟩, submitter_enabled hs.reachable hs.submitting hw⟩
    rintro i -
    rw [hs.submitting]
    simp
  · rintro s t s' ⟨hs, hv⟩ hstep
    obtain hdone | hs' := hs.step hstep
    · exact Or.inl hdone
    · right
      have hsynced := synced_of_reachable hs.reachable
      have hw : ¬ (s.raw_queue.phase (.submitter ())).Waits := by
        rintro ⟨op, hop⟩
        rw [hop] at hv
        cases hv
      have hv' : (s'.raw_queue.phase (.submitter ())).view = .after (.pushed true) := by
        obtain ⟨hafter | hidle, -⟩ :=
          BlockingQueue.after_or_idle hsynced.rawPushes hv hstep.touches.1
        · apply hafter
        · obtain ⟨hbefore, -⟩ | ⟨hafter, -⟩ := hs'.pushed
          · rw [hidle] at hbefore
            cases hbefore
          · apply hafter
      refine ⟨⟨hs', hv'⟩, ?_⟩
      by_cases ht : t = .submitter ()
      · subst ht
        left
        have hne : s.raw_queue.phase (.submitter ()) ≠ .idle := by
          intro hidle
          rw [hidle] at hv
          cases hv
        obtain ⟨a, hc, hx, -, -⟩ | ⟨-, ⟨hq, -⟩ | ⟨hq, -⟩ | ⟨hq, -⟩⟩ := hstep.cases
        · have hsubmitting := hs'.submitting
          generalize s'.core = c' at hc hsubmitting
          cases hc with
          | submit hp => cases hp.symm.trans hs.submitting
          | submitReturns hp =>
              simp at hsubmitting
        · obtain hsilent | ⟨op, r, heffect⟩ := hq.cases
          · have hlt := BlockingQueue.work_lt_of_silent (by
              intro op hbefore
              cases hv.symm.trans hbefore) hsilent hq
            have hw' : ¬ (s'.raw_queue.phase (.submitter ())).Waits := by
              rintro ⟨op, hop⟩
              rw [hop] at hv'
              cases hv'
            rw [BlockingQueue.patience_eq_zero hw, BlockingQueue.patience_eq_zero hw'] at hlt
            apply hlt
          · cases hv.symm.trans heffect.before
        · apply absurd (hsynced.submitter_elsewhere hne).1 hq.ne_idle
        · apply absurd (hsynced.submitter_elsewhere hne).2 hq.ne_idle
      · right
        have hphase : s'.raw_queue.phase (.submitter ()) = s.raw_queue.phase (.submitter ()) := by
          obtain ⟨x, hx⟩ | hq := hstep.touches.1
          · apply hx.phase_of_ne (Ne.symm ht)
          · apply hq.phase_of_ne (Ne.symm ht) hw
        rw [hphase]
        exact ⟨ht, rfl, fun _ h => h⟩
  · exact ⟨h, hafter⟩

/-- The results delivered only get more. -/
theorem Step.callbacks_prefix {s s' : State Unit K} {t : Thread Unit} (h : Step P s t s') :
  s.core.callbacks <+: s'.core.callbacks
  := by
  obtain ⟨a, hc, -⟩ | ⟨hcore, -⟩ := h.cases
  · by_cases ht : t = .stage .post
    · subst ht
      generalize s'.core = c' at hc ⊢
      cases hc with
      | callback hp => apply List.prefix_append
      | _ => apply List.prefix_refl
    · rw [(hc.posting ht).2]
  · rw [hcore]

/-- In a fair execution, there is progress while the thread is before its push. -/
theorem Submitting.advances {E : (system Unit P).Execution} (hE : Fair E) {n : ℕ}
    (h : Submitting P sample (E.state n)) :
  ∃ m, n ≤ m ∧ ((E.state m).core.StopCalled ∨ (E.state n).progress < (E.state m).progress)
  := by
  apply E.reaches_of_helpful State.hurdle (fun s t => t = s.provider)
    (C := fun t s => s.Active t)
    (G := fun s => s.core.StopCalled ∨ (E.state n).progress < s.progress)
    (R := fun s => Submitting P sample s ∧ s.progress = (E.state n).progress)
  · intro s t _ _
    apply hE t
  · intro s _
    exact ⟨_, rfl⟩
  · rintro s t ⟨hs, -⟩ rfl
    apply hs.enabled
  · rintro s t s' ⟨hs, hp⟩ hstep
    by_cases hcalled : s'.core.StopCalled
    · exact Or.inl (Or.inl hcalled)
    · have hup := hs.up.step hstep hcalled
      obtain hlt | hstill := hstep.still_or_progress hs.reachable hup
      · rw [hp] at hlt
        exact Or.inl (Or.inr hlt)
      · obtain ⟨hs', hless⟩ := hs.step hstep hstill hup
        refine Or.inr ⟨⟨hs', hstill.progress.trans hp⟩, ?_⟩
        obtain hlt | ⟨ht, heq, hsame⟩ := hless
        · exact Or.inl hlt
        · right
          refine ⟨ht, heq, ?_⟩
          rintro u rfl
          apply hsame.symm
  · exact ⟨h, rfl⟩

/-- In a fair execution, a call of `submit` by the only thread that submits returns, and its sample is
accepted, unless `stop` is called. -/
theorem Calling.accepts {E : (system Unit P).Execution} (hE : Fair E) {n : ℕ}
    (h : Calling P A sample (E.state n)) :
  ∃ m, n ≤ m ∧ ((E.state m).core.StopCalled ∨ Returned A sample (E.state m))
  := by
  by_contra hnone
  have hnot : ∀ m, n ≤ m →
      ¬ ((E.state m).core.StopCalled ∨ Returned A sample (E.state m)) :=
    fun m hm hdone => hnone ⟨m, hm, hdone⟩
  have hgoing := h.going hnot
  have hbefore : ∀ m, n ≤ m →
      ((E.state m).raw_queue.phase (.submitter ())).view = .before (.push sample)
        ∧ BlockingQueue.accepted (E.state m).raw_queue.log = A := by
    intro m hm
    obtain hbefore | ⟨hafter, -⟩ := (hgoing m hm).pushed
    · apply hbefore
    · obtain ⟨m', hm', hdone⟩ := (hgoing m hm).returns hE hafter
      apply absurd hdone (hnot m' (hm.trans hm'))
  have hblocks : ∀ m, n ≤ m → (E.state m).blocks = A.length / kTargetLength := by
    intro m hm
    rw [State.blocks, State.acceptedCount, (hbefore m hm).2]
  obtain ⟨m₀, hm₀, hdelivered⟩ :
      ∃ m, n ≤ m ∧ A.length / kTargetLength ≤ (E.state m).core.callbacks.length := by
    by_cases hle : A.length / kTargetLength ≤ (E.state n).core.callbacks.length
    · exact ⟨n, le_refl n, hle⟩
    · have hawaiting : Awaiting P (A.length / kTargetLength - 1) (E.state n) := by
        refine ⟨h.reachable, h.up, by omega, ?_⟩
        rw [(hbefore n (le_refl n)).2, ← Nat.le_div_iff_mul_le (by decide)]
        omega
      obtain ⟨m, hm, hcalled | hlt⟩ := hawaiting.delivers hE
      · apply absurd (Or.inl hcalled) (hnot m hm)
      · exact ⟨m, hm, by omega⟩
  have hsubmitting : ∀ m, m₀ ≤ m → Submitting P sample (E.state m) := by
    intro m hm
    have hgoing := hgoing m (hm₀.trans hm)
    refine ⟨hgoing.reachable, hgoing.up, (hbefore m (hm₀.trans hm)).1, ?_⟩
    rw [hblocks m (hm₀.trans hm)]
    apply hdelivered.trans
    apply List.IsPrefix.length_le
    apply E.stable (P := fun s => (E.state m₀).core.callbacks <+: s.core.callbacks) _ _ m hm
    · intro s t s' hs hstep
      apply hs.trans (Step.callbacks_prefix hstep)
    · apply List.prefix_refl
  have hunbounded : ∀ j, ∃ m, m₀ ≤ m ∧ j ≤ (E.state m).progress := by
    intro j
    induction j with
    | zero => exact ⟨m₀, le_refl m₀, Nat.zero_le _⟩
    | succ j ih =>
        obtain ⟨m, hm, hj⟩ := ih
        obtain ⟨m', hm', hcalled | hlt⟩ := (hsubmitting m hm).advances hE
        · apply absurd (Or.inl hcalled) (hnot m' (hm₀.trans (hm.trans hm')))
        · exact ⟨m', hm.trans hm', by omega⟩
  obtain ⟨m, hm, hj⟩ := hunbounded
    (9 * ((A.length / kTargetLength + (2 * P.queue_capacity + 3)) * kTargetLength
      + P.queue_capacity) + 1)
  have hs := hsubmitting m hm
  obtain ⟨⟨hcallbacks, -⟩, -⟩ := nothing_of_delivered hs.reachable hs.up hs.delivered
  have hle := progress_le hs.reachable hs.up (le_of_eq (hcallbacks.trans (hblocks m (hm₀.trans hm))))
  omega

/-- Where only one thread calls `submit`, in every fair execution of a started pipeline, a call of
`submit` that has not pushed its sample yet returns, and its sample is then the last one accepted,
unless `stop` is called.  The thread may wait for room in the meantime, be woken without reason, and
find the queue full again: the stages make room. -/
theorem submit_returns (P : Params K) {s : State Unit K} (h : (system Unit P).Reachable s)
    (hstarted : .started true ∈ s.core.lifecycle) {sample : RawSample K}
    (hcall : (s.raw_queue.phase (.submitter ())).view = .before (.push sample))
    (E : (system Unit P).Execution) (hE : E.state 0 = s) (hfair : Fair E) :
  ∃ m, (E.state m).core.StopCalled ∨ (E.state m).core.submitting () = none
    ∧ BlockingQueue.accepted (E.state m).raw_queue.log
      = BlockingQueue.accepted s.raw_queue.log ++ [sample]
  := by
  subst hE
  by_cases hcalled : (E.state 0).core.StopCalled
  · exact ⟨0, Or.inl hcalled⟩
  · have hsubmitting : (E.state 0).core.submitting () = some sample := by
      obtain ⟨ht, -⟩ | ⟨ht, -⟩ | ⟨i, pushed, -, hp, hop⟩ :=
        Core.rawCall_cases (((synced_of_reachable h).raw _).of_before hcall)
      · cases ht
      · cases ht
      · cases hop
        apply hp
    have hcalling : Calling P (BlockingQueue.accepted (E.state 0).raw_queue.log) sample
        (E.state 0) := ⟨h, ⟨hstarted, hcalled⟩, hsubmitting, Or.inl ⟨hcall, rfl⟩⟩
    obtain ⟨m, -, hdone⟩ := hcalling.accepts hfair
    exact ⟨m, hdone⟩

/-- The theorem for the first sample that is submitted to a started pipeline. -/
theorem submit_returns_first :
  ∃ (E : (system Unit Params.small).Execution) (m : ℕ), (E.state 0).core.submitting () ≠ none
    ∧ ((E.state m).core.StopCalled ∨ (E.state m).core.submitting () = none
      ∧ BlockingQueue.accepted (E.state m).raw_queue.log
        = BlockingQueue.accepted (E.state 0).raw_queue.log ++ [RawSample.default ℚ])
  := by
  obtain ⟨rawLog, tensorLog, resultLog, h⟩ :=
    quiet_started (σ := Unit) (K := ℚ) (P := Params.small)
  have hcall := h.step (Step.rawCall (t := .submitter ())
    (SubmitStep.submit rfl (RawSample.default ℚ)) rfl)
  obtain ⟨E, hE, hfair⟩ := exists_fair (σ := Unit) Params.small _
  obtain ⟨m, hm⟩ := submit_returns Params.small hcall (List.mem_singleton_self _)
    (congrArg Monitor.Phase.view (Monitor.alone_phase_self ..)) E hE hfair
  refine ⟨E, m, ?_, ?_⟩
  · rw [hE]
    simp
  · rw [hE]
    apply hm

end Pipeline
