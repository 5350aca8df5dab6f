import PipeAI.Pipeline.Calls

/-!
# What a step of the pipeline can do

A step of the pipeline is a step of the core together with what its action does to each
queue, or a step inside one queue (`Step.cases`).  A step of the core changes the part of the
core that belongs to its thread, and leaves the others (`CoreStep.forming`,
`CoreStep.inferring`, `CoreStep.posting`).
-/

namespace Pipeline

variable {σ K : Type} [DecidableEq σ]

/-- What an action does with the raw queue. -/
def Action.raw : Action K → BlockingQueue.Access (RawSample K)
  | .call (.raw op) => .call op
  | .ret (.raw r) => .ret r
  | _ => .none

/-- What an action does with the tensor queue. -/
def Action.tensor : Action K → BlockingQueue.Access (ModelInput K)
  | .call (.tensor op) => .call op
  | .ret (.tensor r) => .ret r
  | _ => .none

/-- What an action does with the result queue. -/
def Action.result : Action K → BlockingQueue.Access (InferenceResult K)
  | .call (.result op) => .call op
  | .ret (.result r) => .ret r
  | _ => .none

variable [Field K] [LinearOrder K]

/-- A step is a step of the core, together with what its action does to the queues, or a step
inside one of the queues. -/
theorem Step.cases {P : Params K} {s s' : State σ K} {t : Thread σ} (h : Step P s t s') :
  (∃ a, CoreStep P s.core t a s'.core ∧ a.raw.Run t s.raw_queue s'.raw_queue
      ∧ a.tensor.Run t s.tensor_queue s'.tensor_queue
      ∧ a.result.Run t s.result_queue s'.result_queue)
    ∨ s'.core = s.core ∧
      (((BlockingQueue.monitor _).Internal s.raw_queue t s'.raw_queue
          ∧ s'.tensor_queue = s.tensor_queue ∧ s'.result_queue = s.result_queue)
        ∨ ((BlockingQueue.monitor _).Internal s.tensor_queue t s'.tensor_queue
          ∧ s'.raw_queue = s.raw_queue ∧ s'.result_queue = s.result_queue)
        ∨ ((BlockingQueue.monitor _).Internal s.result_queue t s'.result_queue
          ∧ s'.raw_queue = s.raw_queue ∧ s'.tensor_queue = s.tensor_queue))
  := by
  cases h with
  | tau hc => exact Or.inl ⟨_, hc, rfl, rfl, rfl⟩
  | rawCall hc hp => exact Or.inl ⟨_, hc, ⟨hp, rfl⟩, rfl, rfl⟩
  | rawReturn hc hp => exact Or.inl ⟨_, hc, ⟨hp, rfl⟩, rfl, rfl⟩
  | raw hq => exact Or.inr ⟨rfl, Or.inl ⟨hq, rfl, rfl⟩⟩
  | tensorCall hc hp => exact Or.inl ⟨_, hc, rfl, ⟨hp, rfl⟩, rfl⟩
  | tensorReturn hc hp => exact Or.inl ⟨_, hc, rfl, ⟨hp, rfl⟩, rfl⟩
  | tensor hq => exact Or.inr ⟨rfl, Or.inr (Or.inl ⟨hq, rfl, rfl⟩)⟩
  | resultCall hc hp => exact Or.inl ⟨_, hc, rfl, rfl, ⟨hp, rfl⟩⟩
  | resultReturn hc hp => exact Or.inl ⟨_, hc, rfl, rfl, ⟨hp, rfl⟩⟩
  | result hq => exact Or.inr ⟨rfl, Or.inr (Or.inr ⟨hq, rfl, rfl⟩)⟩

variable {P : Params K} {c c' : Core σ K} {t : Thread σ} {a : Action K}

/-- The part of the core in which windows are formed belongs to the first stage. -/
theorem CoreStep.forming (h : CoreStep P c t a c') (ht : t ≠ .stage .preprocess) :
  c'.preprocess = c.preprocess ∧ c'.window_buffer = c.window_buffer
    ∧ c'.window_mutex = c.window_mutex ∧ c'.windows = c.windows
  := by
  rcases t with (_ | _ | _) | _ | i
  · apply absurd rfl ht
  all_goals cases h <;> exact ⟨rfl, rfl, rfl, rfl⟩

/-- The part of the core in which the model is run belongs to the second stage. -/
theorem CoreStep.inferring (h : CoreStep P c t a c') (ht : t ≠ .stage .inference) :
  c'.inference = c.inference ∧ c'.window_id = c.window_id ∧ c'.inferred = c.inferred
  := by
  rcases t with (_ | _ | _) | _ | i
  rotate_left
  · apply absurd rfl ht
  all_goals cases h <;> exact ⟨rfl, rfl, rfl⟩

/-- The part of the core in which results are delivered belongs to the third stage. -/
theorem CoreStep.posting (h : CoreStep P c t a c') (ht : t ≠ .stage .post) :
  c'.post = c.post ∧ c'.callbacks = c.callbacks
  := by
  rcases t with (_ | _ | _) | _ | i
  rotate_left 2
  · apply absurd rfl ht
  all_goals cases h <;> exact ⟨rfl, rfl⟩

/-- Only the first stage calls `push` of the tensor queue. -/
theorem CoreStep.pushes_tensor (h : CoreStep P c t a c') (ht : t ≠ .stage .preprocess)
    {op : BlockingQueue.Op (ModelInput K)} (ha : a.tensor = .call op) :
  op.pushes = none
  := by
  have hcall : c'.tensorCall t = some op := by
    rw [Core.tensorCall, h.calls.bind_self]
    cases a with
    | call x =>
        cases x <;> cases ha
        rfl
    | ret r => cases r <;> cases ha
    | tau => cases ha
  obtain ⟨input, rfl, -, -⟩ | ⟨-, -, rfl⟩ | ⟨-, -, rfl⟩ := Core.tensorCall_cases hcall
  · apply absurd rfl ht
  · rfl
  · rfl

/-- Only the second stage calls `push` of the result queue. -/
theorem CoreStep.pushes_result (h : CoreStep P c t a c') (ht : t ≠ .stage .inference)
    {op : BlockingQueue.Op (InferenceResult K)} (ha : a.result = .call op) :
  op.pushes = none
  := by
  have hcall : c'.resultCall t = some op := by
    rw [Core.resultCall, h.calls.bind_self]
    cases a with
    | call x =>
        cases x <;> cases ha
        rfl
    | ret r => cases r <;> cases ha
    | tau => cases ha
  obtain ⟨result, rfl, -, -⟩ | ⟨-, -, rfl⟩ | ⟨-, -, rfl⟩ := Core.resultCall_cases hcall
  · apply absurd rfl ht
  · rfl
  · rfl

end Pipeline
