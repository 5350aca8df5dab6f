import PipeAI.Pipeline.Pipeline
import PipeAI.Pipeline.Endpoint

/-!
# The calls of the pipeline

A thread is in at most one call of a queue operation, which its program counter determines
(`Core.calling`).  In every reachable state the phases of the threads in the queues agree
with the calls (`synced_of_reachable`).  Hence each queue has its own producers and consumer:
the first stage pops the raw samples and pushes the tensors, the second stage pops the tensors
and pushes the results, the third stage pops the results.

Each queue of a reachable state is in a reachable state of its own (`rawProjection`,
`tensorProjection`, `resultProjection`).
-/

namespace Pipeline

variable {σ K : Type}

/-! ### The calls of the threads -/

/-- The call of the first stage. -/
def PreprocessPc.call : PreprocessPc K → Option (Call K)
  | .popping => some (.raw .pop)
  | .pushing input => some (.tensor (.push input))
  | _ => none

/-- The call of the second stage. -/
def InferencePc.call : InferencePc K → Option (Call K)
  | .popping => some (.tensor .pop)
  | .pushing result => some (.result (.push result))
  | _ => none

/-- The call of the third stage. -/
def PostPc.call : PostPc K → Option (Call K)
  | .popping => some (.result .pop)
  | _ => none

/-- The call of the thread that calls `start` and `stop`. -/
def ControlPc.call : ControlPc → Option (Call K)
  | .closing k => some k.closeCall
  | _ => none

/-- The call a thread is in. -/
def Core.calling (c : Core σ K) : Thread σ → Option (Call K)
  | .stage .preprocess => c.preprocess.call
  | .stage .inference => c.inference.call
  | .stage .post => c.post.call
  | .control => c.control.call
  | .submitter i => (c.submitting i).map (fun sample => .raw (.push sample))

/-- The operation of the raw queue that is called. -/
def Call.onRaw : Call K → Option (BlockingQueue.Op (RawSample K))
  | .raw op => some op
  | _ => none

/-- The operation of the tensor queue that is called. -/
def Call.onTensor : Call K → Option (BlockingQueue.Op (ModelInput K))
  | .tensor op => some op
  | _ => none

/-- The operation of the result queue that is called. -/
def Call.onResult : Call K → Option (BlockingQueue.Op (InferenceResult K))
  | .result op => some op
  | _ => none

/-- The call of the acting thread after an action, given the one before. -/
def Action.calling (a : Action K) (o : Option (Call K)) : Option (Call K) :=
  match a with
  | .tau => o
  | .call x => some x
  | .ret _ => none

/-- The value is one returned by an operation of the queue that is called. -/
def Return.Answers : Return K → Call K → Prop
  | .raw _, .raw _ => True
  | .tensor _, .tensor _ => True
  | .result _, .result _ => True
  | _, _ => False

/-- A thread calls an operation when it is in no call, and returns from the call it is in. -/
def Action.Allowed (a : Action K) (o : Option (Call K)) : Prop :=
  match a with
  | .tau => True
  | .call _ => o = none
  | .ret r => ∃ x, o = some x ∧ r.Answers x

/-- An action of the thread `t` begins and ends the calls it says. -/
structure Calls (c : Core σ K) (t : Thread σ) (a : Action K) (c' : Core σ K) : Prop where
  others : ∀ u, u ≠ t → c'.calling u = c.calling u
  self : c'.calling t = a.calling (c.calling t)
  allowed : a.Allowed (c.calling t)

/-- Cores that agree on the program counters of all threads but `t` agree on their calls. -/
theorem calling_of_ne {c c' : Core σ K} {t : Thread σ}
    (h₁ : t ≠ .stage .preprocess → c'.preprocess = c.preprocess)
    (h₂ : t ≠ .stage .inference → c'.inference = c.inference)
    (h₃ : t ≠ .stage .post → c'.post = c.post)
    (h₄ : t ≠ .control → c'.control = c.control)
    (h₅ : ∀ i, t ≠ .submitter i → c'.submitting i = c.submitting i) :
  ∀ u, u ≠ t → c'.calling u = c.calling u
  := by
  rintro ((_ | _ | _) | _ | i) hu
  · rw [Core.calling, Core.calling, h₁ hu.symm]
  · rw [Core.calling, Core.calling, h₂ hu.symm]
  · rw [Core.calling, Core.calling, h₃ hu.symm]
  · rw [Core.calling, Core.calling, h₄ hu.symm]
  · rw [Core.calling, Core.calling, h₅ i hu.symm]

section Steps

variable [Field K] [LinearOrder K]

/-- The calls of the first stage. -/
theorem PreprocessStep.calls {P : Params K} {c c' : Core σ K} {a : Action K}
    (h : PreprocessStep P c a c') :
  Calls c (.stage .preprocess) a c'
  := by
  constructor
  · apply calling_of_ne
    · intro ht
      apply absurd rfl ht
    all_goals intros; cases h <;> rfl
  · cases h with
    | run hp hw hrun =>
        simp only [Core.calling, Action.calling, hp]
        split <;> rfl
    | exit ht hr => rfl
    | _ hp => simp [Core.calling, Action.calling, PreprocessPc.call, hp]
  · cases h with
    | callPop hp => simp [Core.calling, Action.Allowed, PreprocessPc.call, hp]
    | callPush hp => simp [Core.calling, Action.Allowed, PreprocessPc.call, hp]
    | popReturns hp => simp [Core.calling, Action.Allowed, Return.Answers, PreprocessPc.call, hp]
    | popEnds hp => simp [Core.calling, Action.Allowed, Return.Answers, PreprocessPc.call, hp]
    | pushReturns hp => simp [Core.calling, Action.Allowed, Return.Answers, PreprocessPc.call, hp]
    | _ => trivial

omit [LinearOrder K] in
/-- The calls of the second stage. -/
theorem InferenceStep.calls {c c' : Core σ K} {a : Action K} (h : InferenceStep c a c') :
  Calls c (.stage .inference) a c'
  := by
  constructor
  · apply calling_of_ne
    rotate_left
    · intro ht
      apply absurd rfl ht
    all_goals intros; cases h <;> rfl
  · cases h with
    | exit ht hr => rfl
    | _ hp => simp [Core.calling, Action.calling, InferencePc.call, hp]
  · cases h with
    | callPop hp => simp [Core.calling, Action.Allowed, InferencePc.call, hp]
    | callPush hp => simp [Core.calling, Action.Allowed, InferencePc.call, hp]
    | popReturns hp => simp [Core.calling, Action.Allowed, Return.Answers, InferencePc.call, hp]
    | popEnds hp => simp [Core.calling, Action.Allowed, Return.Answers, InferencePc.call, hp]
    | pushReturns hp => simp [Core.calling, Action.Allowed, Return.Answers, InferencePc.call, hp]
    | _ => trivial

/-- The calls of the third stage. -/
theorem PostStep.calls {P : Params K} {c c' : Core σ K} {a : Action K} (h : PostStep P c a c') :
  Calls c (.stage .post) a c'
  := by
  constructor
  · apply calling_of_ne
    rotate_left 2
    · intro ht
      apply absurd rfl ht
    all_goals intros; cases h <;> rfl
  · cases h with
    | exit ht hr => rfl
    | _ hp => simp [Core.calling, Action.calling, PostPc.call, hp]
  · cases h with
    | callPop hp => simp [Core.calling, Action.Allowed, PostPc.call, hp]
    | popReturns hp => simp [Core.calling, Action.Allowed, Return.Answers, PostPc.call, hp]
    | popEnds hp => simp [Core.calling, Action.Allowed, Return.Answers, PostPc.call, hp]
    | _ => trivial

omit [Field K] [LinearOrder K] in
theorem call_nextStart (c : Core σ K) (k : Stage) (ok : Bool) :
  (c.nextStart k ok).control.call (K := K) = none
  := by
  cases k <;> rfl

omit [Field K] [LinearOrder K] in
theorem call_nextClose (c : Core σ K) (k : Stage) :
  (c.nextClose k).control.call (K := K) = none
  := by
  cases k <;> rfl

omit [Field K] [LinearOrder K] in
theorem call_nextStop (c : Core σ K) (k : Stage) :
  (c.nextStop k).control.call (K := K) = none
  := by
  cases k <;> rfl

omit [Field K] [LinearOrder K] in
/-- The calls of `start` and `stop`. -/
theorem ControlStep.calls {c c' : Core σ K} {a : Action K} (h : ControlStep c a c') :
  Calls c .control a c'
  := by
  constructor
  · apply calling_of_ne
    rotate_left 3
    · intro ht
      apply absurd rfl ht
    all_goals intros; cases h <;> rfl
  · cases h with
    | startLoses hp hx =>
        simp only [Core.calling, Action.calling, hp]
        apply call_nextStart
    | assign hp hw =>
        simp only [Core.calling, Action.calling, hp]
        apply call_nextStart
    | closeReturns hp => apply call_nextClose
    | stopLoses hp hx =>
        simp only [Core.calling, Action.calling, hp]
        apply call_nextStop
    | notJoinable hp hj =>
        simp only [Core.calling, Action.calling, hp]
        apply call_nextStop
    | join hp hx =>
        simp only [Core.calling, Action.calling, hp]
        apply call_nextStop
    | _ hp =>
        simp only [Core.calling, Action.calling, hp]
        rfl
  · cases h with
    | callClose hp => simp [Core.calling, Action.Allowed, ControlPc.call, hp]
    | @closeReturns k hp =>
        rw [Core.calling, hp]
        cases k <;> exact ⟨_, rfl, trivial⟩
    | _ => trivial

variable [DecidableEq σ]

omit [Field K] [LinearOrder K] in
/-- The calls of `submit`. -/
theorem SubmitStep.calls {i : σ} {c c' : Core σ K} {a : Action K} (h : SubmitStep i c a c') :
  Calls c (.submitter i) a c'
  := by
  constructor
  · apply calling_of_ne
    rotate_right
    · intro j hj
      have hne : j ≠ i := by
        rintro rfl
        apply hj rfl
      cases h <;> apply Function.update_of_ne hne
    all_goals intros; cases h <;> rfl
  · cases h <;> simp [Core.calling, Action.calling]
  · cases h with
    | submit hp => simp [Core.calling, Action.Allowed, hp]
    | submitReturns hp => simp [Core.calling, Action.Allowed, Return.Answers, hp]

/-- A step of the core begins and ends the calls that its action says. -/
theorem CoreStep.calls {P : Params K} {c c' : Core σ K} {t : Thread σ} {a : Action K}
    (h : CoreStep P c t a c') :
  Calls c t a c'
  := by
  cases t with
  | stage k =>
      cases k with
      | preprocess => apply PreprocessStep.calls h
      | inference => apply InferenceStep.calls h
      | post => apply PostStep.calls h
  | control => apply ControlStep.calls h
  | submitter i => apply SubmitStep.calls h

end Steps

/-! ### The phases of the threads -/

/-- The operation of the raw queue that a thread is in. -/
def Core.rawCall (c : Core σ K) (t : Thread σ) : Option (BlockingQueue.Op (RawSample K)) :=
  (c.calling t).bind Call.onRaw

/-- The operation of the tensor queue that a thread is in. -/
def Core.tensorCall (c : Core σ K) (t : Thread σ) : Option (BlockingQueue.Op (ModelInput K)) :=
  (c.calling t).bind Call.onTensor

/-- The operation of the result queue that a thread is in. -/
def Core.resultCall (c : Core σ K) (t : Thread σ) :
    Option (BlockingQueue.Op (InferenceResult K)) :=
  (c.calling t).bind Call.onResult

/-- The phases of the threads in the queues agree with their calls. -/
structure Synced (s : State σ K) : Prop where
  raw : ∀ t, (BlockingQueue.monitor _).InCall (s.core.rawCall t) (s.raw_queue.phase t)
  tensor : ∀ t, (BlockingQueue.monitor _).InCall (s.core.tensorCall t) (s.tensor_queue.phase t)
  result : ∀ t, (BlockingQueue.monitor _).InCall (s.core.resultCall t) (s.result_queue.phase t)

/-- The calls of a queue after an action of `t` that calls its operation `op`. -/
theorem inCall_call {T τ : Type} [DecidableEq τ] {q : BlockingQueue.State τ T}
    {f g : τ → Option (BlockingQueue.Op T)} {t : τ} {op : BlockingQueue.Op T}
    (h : ∀ u, (BlockingQueue.monitor T).InCall (f u) (q.phase u))
    (hothers : ∀ u, u ≠ t → g u = f u) (hself : g t = some op) :
  ∀ u, (BlockingQueue.monitor T).InCall (g u) ((q.call t op).phase u)
  := by
  intro u
  by_cases hu : u = t
  · subst hu
    rw [hself, Monitor.State.call, Monitor.State.setPhase_phase_self]
    left
    rfl
  · rw [hothers u hu, Monitor.State.call, Monitor.State.setPhase_phase_of_ne _ _ hu]
    apply h

/-- The calls of a queue after an action of `t` that returns from an operation of it. -/
theorem inCall_ret {T τ : Type} [DecidableEq τ] {q : BlockingQueue.State τ T}
    {f g : τ → Option (BlockingQueue.Op T)} {t : τ}
    (h : ∀ u, (BlockingQueue.monitor T).InCall (f u) (q.phase u))
    (hothers : ∀ u, u ≠ t → g u = f u) (hself : g t = none) :
  ∀ u, (BlockingQueue.monitor T).InCall (g u) ((q.ret t).phase u)
  := by
  intro u
  by_cases hu : u = t
  · subst hu
    rw [hself, Monitor.State.ret, Monitor.State.setPhase_phase_self]
    rfl
  · rw [hothers u hu, Monitor.State.ret, Monitor.State.setPhase_phase_of_ne _ _ hu]
    apply h

/-- The action begins and ends no call on which `on` is defined. -/
def Action.Avoids {β : Type} (a : Action K) (on : Call K → Option β) : Prop :=
  match a with
  | .tau => True
  | .call x => on x = none
  | .ret r => ∀ x, r.Answers x → on x = none

/-- An action that avoids a queue leaves its calls. -/
theorem Calls.of_avoids {β : Type} (on : Call K → Option β) {c c' : Core σ K} {t : Thread σ}
    {a : Action K} (h : Calls c t a c') (ha : a.Avoids on) (u : Thread σ) :
  (c'.calling u).bind on = (c.calling u).bind on
  := by
  by_cases hu : u = t
  · subst hu
    rw [h.self]
    cases a with
    | tau => rfl
    | call x =>
        have hnone : c.calling u = none := h.allowed
        have hx : on x = none := ha
        rw [hnone, Action.calling, Option.bind_some, hx, Option.bind_none]
    | ret r =>
        obtain ⟨x, hx, hr⟩ := h.allowed
        rw [hx, Action.calling, Option.bind_some, ha x hr, Option.bind_none]
  · rw [h.others u hu]

/-- An action of `t` leaves the calls of the other threads. -/
theorem Calls.bind_of_ne {β : Type} (on : Call K → Option β) {c c' : Core σ K} {t : Thread σ}
    {a : Action K} (h : Calls c t a c') {u : Thread σ} (hu : u ≠ t) :
  (c'.calling u).bind on = (c.calling u).bind on
  := by
  rw [h.others u hu]

/-- An action of `t` leads to the call that it begins. -/
theorem Calls.bind_self {β : Type} (on : Call K → Option β) {c c' : Core σ K} {t : Thread σ}
    {a : Action K} (h : Calls c t a c') :
  (c'.calling t).bind on = (a.calling (c.calling t)).bind on
  := by
  rw [h.self]

/-! ### Producers and consumers -/

/-- The calls of the raw queue are the pops of the first stage, `close` in `stop`, and the
pushes in `submit`. -/
theorem Core.rawCall_cases {c : Core σ K} {t : Thread σ} {op : BlockingQueue.Op (RawSample K)}
    (h : c.rawCall t = some op) :
  (t = .stage .preprocess ∧ c.preprocess = .popping ∧ op = .pop)
    ∨ (t = .control ∧ c.control = .closing .preprocess ∧ op = .close)
    ∨ ∃ i sample, t = .submitter i ∧ c.submitting i = some sample ∧ op = .push sample
  := by
  rcases t with (_ | _ | _) | _ | i
  · cases hp : c.preprocess with
    | popping =>
        rw [Core.rawCall, Core.calling, hp] at h
        cases h
        exact Or.inl ⟨rfl, rfl, rfl⟩
    | _ =>
        rw [Core.rawCall, Core.calling, hp] at h
        cases h
  · cases hp : c.inference <;> rw [Core.rawCall, Core.calling, hp] at h <;> cases h
  · cases hp : c.post <;> rw [Core.rawCall, Core.calling, hp] at h <;> cases h
  · cases hp : c.control with
    | closing k =>
        rw [Core.rawCall, Core.calling, hp] at h
        cases k <;> cases h
        exact Or.inr (Or.inl ⟨rfl, rfl, rfl⟩)
    | _ =>
        rw [Core.rawCall, Core.calling, hp] at h
        cases h
  · cases hp : c.submitting i with
    | none =>
        rw [Core.rawCall, Core.calling, hp] at h
        cases h
    | some sample =>
        rw [Core.rawCall, Core.calling, hp] at h
        cases h
        exact Or.inr (Or.inr ⟨i, sample, rfl, hp, rfl⟩)

/-- The calls of the tensor queue are the pushes of the first stage, the pops of the second
one, and `close` in `stop`. -/
theorem Core.tensorCall_cases {c : Core σ K} {t : Thread σ}
    {op : BlockingQueue.Op (ModelInput K)} (h : c.tensorCall t = some op) :
  (∃ input, t = .stage .preprocess ∧ c.preprocess = .pushing input ∧ op = .push input)
    ∨ (t = .stage .inference ∧ c.inference = .popping ∧ op = .pop)
    ∨ t = .control ∧ c.control = .closing .inference ∧ op = .close
  := by
  rcases t with (_ | _ | _) | _ | i
  · cases hp : c.preprocess with
    | pushing input =>
        rw [Core.tensorCall, Core.calling, hp] at h
        cases h
        exact Or.inl ⟨input, rfl, rfl, rfl⟩
    | _ =>
        rw [Core.tensorCall, Core.calling, hp] at h
        cases h
  · cases hp : c.inference with
    | popping =>
        rw [Core.tensorCall, Core.calling, hp] at h
        cases h
        exact Or.inr (Or.inl ⟨rfl, rfl, rfl⟩)
    | _ =>
        rw [Core.tensorCall, Core.calling, hp] at h
        cases h
  · cases hp : c.post <;> rw [Core.tensorCall, Core.calling, hp] at h <;> cases h
  · cases hp : c.control with
    | closing k =>
        rw [Core.tensorCall, Core.calling, hp] at h
        cases k <;> cases h
        exact Or.inr (Or.inr ⟨rfl, rfl, rfl⟩)
    | _ =>
        rw [Core.tensorCall, Core.calling, hp] at h
        cases h
  · cases hp : c.submitting i <;> rw [Core.tensorCall, Core.calling, hp] at h <;> cases h

/-- The calls of the result queue are the pushes of the second stage, the pops of the third
one, and `close` in `stop`. -/
theorem Core.resultCall_cases {c : Core σ K} {t : Thread σ}
    {op : BlockingQueue.Op (InferenceResult K)} (h : c.resultCall t = some op) :
  (∃ result, t = .stage .inference ∧ c.inference = .pushing result ∧ op = .push result)
    ∨ (t = .stage .post ∧ c.post = .popping ∧ op = .pop)
    ∨ t = .control ∧ c.control = .closing .post ∧ op = .close
  := by
  rcases t with (_ | _ | _) | _ | i
  · cases hp : c.preprocess <;> rw [Core.resultCall, Core.calling, hp] at h <;> cases h
  · cases hp : c.inference with
    | pushing result =>
        rw [Core.resultCall, Core.calling, hp] at h
        cases h
        exact Or.inl ⟨result, rfl, rfl, rfl⟩
    | _ =>
        rw [Core.resultCall, Core.calling, hp] at h
        cases h
  · cases hp : c.post with
    | popping =>
        rw [Core.resultCall, Core.calling, hp] at h
        cases h
        exact Or.inr (Or.inl ⟨rfl, rfl, rfl⟩)
    | _ =>
        rw [Core.resultCall, Core.calling, hp] at h
        cases h
  · cases hp : c.control with
    | closing k =>
        rw [Core.resultCall, Core.calling, hp] at h
        cases k <;> cases h
        exact Or.inr (Or.inr ⟨rfl, rfl, rfl⟩)
    | _ =>
        rw [Core.resultCall, Core.calling, hp] at h
        cases h
  · cases hp : c.submitting i <;> rw [Core.resultCall, Core.calling, hp] at h <;> cases h

/-- Only the first stage pops from the raw queue. -/
theorem Synced.rawPops {s : State σ K} (h : Synced s) :
  BlockingQueue.OnlyPops s.raw_queue (.stage .preprocess)
  := by
  intro t op hv hop
  obtain ⟨rfl, -, -⟩ | ⟨-, -, rfl⟩ | ⟨i, sample, -, -, rfl⟩ :=
    Core.rawCall_cases ((h.raw t).of_before hv)
  · rfl
  · cases hop
  · cases hop

/-- Only the first stage pushes to the tensor queue. -/
theorem Synced.tensorPushes {s : State σ K} (h : Synced s) :
  BlockingQueue.OnlyPushes s.tensor_queue (.stage .preprocess)
  := by
  intro t op value hv hop
  obtain ⟨input, rfl, -, rfl⟩ | ⟨-, -, rfl⟩ | ⟨-, -, rfl⟩ :=
    Core.tensorCall_cases ((h.tensor t).of_before hv)
  · cases hop
    exact ⟨rfl, rfl⟩
  · cases hop
  · cases hop

/-- Only the second stage pops from the tensor queue. -/
theorem Synced.tensorPops {s : State σ K} (h : Synced s) :
  BlockingQueue.OnlyPops s.tensor_queue (.stage .inference)
  := by
  intro t op hv hop
  obtain ⟨input, -, -, rfl⟩ | ⟨rfl, -, -⟩ | ⟨-, -, rfl⟩ :=
    Core.tensorCall_cases ((h.tensor t).of_before hv)
  · cases hop
  · rfl
  · cases hop

/-- Only the second stage pushes to the result queue. -/
theorem Synced.resultPushes {s : State σ K} (h : Synced s) :
  BlockingQueue.OnlyPushes s.result_queue (.stage .inference)
  := by
  intro t op value hv hop
  obtain ⟨result, rfl, -, rfl⟩ | ⟨-, -, rfl⟩ | ⟨-, -, rfl⟩ :=
    Core.resultCall_cases ((h.result t).of_before hv)
  · cases hop
    exact ⟨rfl, rfl⟩
  · cases hop
  · cases hop

/-- Only the third stage pops from the result queue. -/
theorem Synced.resultPops {s : State σ K} (h : Synced s) :
  BlockingQueue.OnlyPops s.result_queue (.stage .post)
  := by
  intro t op hv hop
  obtain ⟨result, -, -, rfl⟩ | ⟨rfl, -, -⟩ | ⟨-, -, rfl⟩ :=
    Core.resultCall_cases ((h.result t).of_before hv)
  · cases hop
  · rfl
  · cases hop

/-! ### Reachable states -/

variable [Field K] [LinearOrder K] [DecidableEq σ]

/-- Every step keeps the phases of the threads and their calls in agreement. -/
theorem Synced.step {P : Params K} {s s' : State σ K} {t : Thread σ} (h : Synced s)
    (hs : Step P s t s') :
  Synced s'
  := by
  obtain ⟨hraw, htensor, hresult⟩ := h
  cases hs with
  | tau hc =>
      constructor <;> intro u
      · rw [Core.rawCall, hc.calls.of_avoids Call.onRaw trivial]
        apply hraw
      · rw [Core.tensorCall, hc.calls.of_avoids Call.onTensor trivial]
        apply htensor
      · rw [Core.resultCall, hc.calls.of_avoids Call.onResult trivial]
        apply hresult
  | rawCall hc hp =>
      constructor
      · apply inCall_call hraw (fun u hu => hc.calls.bind_of_ne _ hu) (hc.calls.bind_self _)
      all_goals intro u
      · rw [Core.tensorCall, hc.calls.of_avoids Call.onTensor rfl]
        apply htensor
      · rw [Core.resultCall, hc.calls.of_avoids Call.onResult rfl]
        apply hresult
  | rawReturn hc hp =>
      constructor
      · apply inCall_ret hraw (fun u hu => hc.calls.bind_of_ne _ hu) (hc.calls.bind_self _)
      all_goals intro u
      · rw [Core.tensorCall,
          hc.calls.of_avoids Call.onTensor (by rintro (_ | _ | _) hx <;> trivial)]
        apply htensor
      · rw [Core.resultCall,
          hc.calls.of_avoids Call.onResult (by rintro (_ | _ | _) hx <;> trivial)]
        apply hresult
  | raw hq => exact ⟨fun u => (hraw u).internal hq, htensor, hresult⟩
  | tensorCall hc hp =>
      refine ⟨?_, ?_, ?_⟩
      rotate_left
      · apply inCall_call htensor (fun u hu => hc.calls.bind_of_ne _ hu) (hc.calls.bind_self _)
      all_goals intro u
      · rw [Core.resultCall, hc.calls.of_avoids Call.onResult rfl]
        apply hresult
      · rw [Core.rawCall, hc.calls.of_avoids Call.onRaw rfl]
        apply hraw
  | tensorReturn hc hp =>
      refine ⟨?_, ?_, ?_⟩
      rotate_left
      · apply inCall_ret htensor (fun u hu => hc.calls.bind_of_ne _ hu) (hc.calls.bind_self _)
      all_goals intro u
      · rw [Core.resultCall,
          hc.calls.of_avoids Call.onResult (by rintro (_ | _ | _) hx <;> trivial)]
        apply hresult
      · rw [Core.rawCall, hc.calls.of_avoids Call.onRaw (by rintro (_ | _ | _) hx <;> trivial)]
        apply hraw
  | tensor hq => exact ⟨hraw, fun u => (htensor u).internal hq, hresult⟩
  | resultCall hc hp =>
      refine ⟨?_, ?_, ?_⟩
      rotate_left 2
      · apply inCall_call hresult (fun u hu => hc.calls.bind_of_ne _ hu) (hc.calls.bind_self _)
      all_goals intro u
      · rw [Core.rawCall, hc.calls.of_avoids Call.onRaw rfl]
        apply hraw
      · rw [Core.tensorCall, hc.calls.of_avoids Call.onTensor rfl]
        apply htensor
  | resultReturn hc hp =>
      refine ⟨?_, ?_, ?_⟩
      rotate_left 2
      · apply inCall_ret hresult (fun u hu => hc.calls.bind_of_ne _ hu) (hc.calls.bind_self _)
      all_goals intro u
      · rw [Core.rawCall, hc.calls.of_avoids Call.onRaw (by rintro (_ | _ | _) hx <;> trivial)]
        apply hraw
      · rw [Core.tensorCall,
          hc.calls.of_avoids Call.onTensor (by rintro (_ | _ | _) hx <;> trivial)]
        apply htensor
  | result hq => exact ⟨hraw, htensor, fun u => (hresult u).internal hq⟩

/-- In every reachable state the phases of the threads agree with their calls. -/
theorem synced_of_reachable {P : Params K} {s : State σ K} (h : (system σ P).Reachable s) :
  Synced s
  := by
  apply h.invariant
  · rintro s rfl
    constructor <;> rintro ((_ | _ | _) | _ | i) <;> rfl
  · intro s t s' _ hs hstep
    apply hs.step hstep

/-! ### The queues on their own -/

/-- The raw queue of the pipeline is a queue used by the threads of the pipeline. -/
def rawProjection (σ : Type) [DecidableEq σ] (P : Params K) :
    TransitionSystem.Projection (system σ P)
      (BlockingQueue.system (Thread σ) (.empty (RawSample K) P.queue_capacity P.capacity_pos)) where
  map s := s.raw_queue
  init := by
    rintro s rfl
    rfl
  step := by
    intro s t s' _ hs
    cases hs with
    | @rawCall c op hc hp => exact Or.inr ⟨t, .call op hp⟩
    | rawReturn hc hp => exact Or.inr ⟨t, .ret hp⟩
    | raw hq => exact Or.inr ⟨t, .internal hq⟩
    | _ => exact Or.inl rfl

/-- The tensor queue of the pipeline is a queue used by the threads of the pipeline. -/
def tensorProjection (σ : Type) [DecidableEq σ] (P : Params K) :
    TransitionSystem.Projection (system σ P)
      (BlockingQueue.system (Thread σ)
        (.empty (ModelInput K) P.queue_capacity P.capacity_pos)) where
  map s := s.tensor_queue
  init := by
    rintro s rfl
    rfl
  step := by
    intro s t s' _ hs
    cases hs with
    | @tensorCall c op hc hp => exact Or.inr ⟨t, .call op hp⟩
    | tensorReturn hc hp => exact Or.inr ⟨t, .ret hp⟩
    | tensor hq => exact Or.inr ⟨t, .internal hq⟩
    | _ => exact Or.inl rfl

/-- The result queue of the pipeline is a queue used by the threads of the pipeline. -/
def resultProjection (σ : Type) [DecidableEq σ] (P : Params K) :
    TransitionSystem.Projection (system σ P)
      (BlockingQueue.system (Thread σ)
        (.empty (InferenceResult K) P.queue_capacity P.capacity_pos)) where
  map s := s.result_queue
  init := by
    rintro s rfl
    rfl
  step := by
    intro s t s' _ hs
    cases hs with
    | @resultCall c op hc hp => exact Or.inr ⟨t, .call op hp⟩
    | resultReturn hc hp => exact Or.inr ⟨t, .ret hp⟩
    | result hq => exact Or.inr ⟨t, .internal hq⟩
    | _ => exact Or.inl rfl

/-- In each queue of a reachable state, the accepted values are the taken ones followed by the
contents. -/
theorem accepted_eq {P : Params K} {s : State σ K} (h : (system σ P).Reachable s) :
  (BlockingQueue.accepted s.raw_queue.log
      = BlockingQueue.taken s.raw_queue.log ++ s.raw_queue.shared.queue)
    ∧ (BlockingQueue.accepted s.tensor_queue.log
      = BlockingQueue.taken s.tensor_queue.log ++ s.tensor_queue.shared.queue)
    ∧ (BlockingQueue.accepted s.result_queue.log
      = BlockingQueue.taken s.result_queue.log ++ s.result_queue.shared.queue)
  := by
  have hraw := Monitor.sequential_of_reachable ((rawProjection σ P).reachable h)
  have htensor := Monitor.sequential_of_reachable ((tensorProjection σ P).reachable h)
  have hresult := Monitor.sequential_of_reachable ((resultProjection σ P).reachable h)
  exact ⟨(BlockingQueue.fifo_of_sequential rfl hraw).1.1,
    (BlockingQueue.fifo_of_sequential rfl htensor).1.1,
    (BlockingQueue.fifo_of_sequential rfl hresult).1.1⟩

end Pipeline
