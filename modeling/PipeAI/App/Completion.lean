import PipeAI.App.Replay

/-!
# Executions of the program

In a fair execution of the program `main` gets through `start`, through the lines of the file of
samples, and into the loop of `run`, where it stays (`Fair.looping`); and from then on the pipeline
delivers what is left.  For while there is a pipeline, an execution of the program is one of the
pipeline (`exists_projection`), and it is fair too (`Fair.projection`).
-/

namespace App

variable {I : Inputs}

/-! ### Fair executions -/

/-- The thread waits in no queue. -/
def State.Active (s : State) (t : Thread) : Prop :=
  ∀ p u, s.pipeline = some p → s.actor t = some u → ¬ p.Waits u

/-- No thread that waits in no queue stops for ever while it could take a step. -/
def Fair (E : (system I).Execution) : Prop :=
  ∀ t, E.WeaklyFair (fun s => s.Active t) t

/-- The threads in the order of the stages. -/
def Thread.ofNat : ℕ → Thread
  | 0 => .main
  | 1 => .stage .preprocess
  | 2 => .stage .inference
  | _ => .stage .post

instance : Countable Thread := by
  have hsurj : Function.Surjective Thread.ofNat := by
    rintro (_ | _ | _ | _)
    · exact ⟨0, rfl⟩
    · exact ⟨1, rfl⟩
    · exact ⟨2, rfl⟩
    · exact ⟨3, rfl⟩
  apply hsurj.countable

instance : Nonempty Thread :=
  ⟨.main⟩

/-- Every state has a fair execution. -/
theorem exists_fair (I : Inputs) (s : State) :
  ∃ E : (system I).Execution, E.state 0 = s ∧ Fair E
  := TransitionSystem.Execution.exists_weaklyFair (system I) (fun t s => s.Active t) s

/-- The steps of the workers leave `main` where it is. -/
theorem Step.pc_of_stage {s s' : State} {k : Pipeline.Stage} (h : Step I s (.stage k) s') :
  s'.pc = s.pc
  := by
  cases h with
  | stage => rfl

/-- In a fair execution, `main` takes its step where it can. -/
theorem Fair.main {E : (system I).Execution} (hE : Fair E)
    (hinit : (system I).Reachable (E.state 0)) {pc : Pc}
    (henabled : ∀ s, (system I).Reachable s → s.pc = pc → s.Active .main
      ∧ (system I).Enabled .main s) {n : ℕ} (h : (E.state n).pc = pc) :
  ∃ m, n ≤ m ∧ (E.state m).pc = pc ∧ Step I (E.state m) .main (E.state (m + 1))
  := by
  by_contra hnone
  have hstays : ∀ m, n ≤ m → (E.state m).pc = pc := by
    intro m hm
    induction m, hm using Nat.le_induction with
    | base => apply h
    | succ m hm ih =>
        have hs := E.step m
        cases hl : E.label m with
        | none =>
            rw [hl] at hs
            rw [hs]
            apply ih
        | some t =>
            rw [hl] at hs
            cases t with
            | main => apply absurd ⟨m, hm, ih, hs⟩ hnone
            | stage k => apply (Step.pc_of_stage hs).trans ih
  obtain ⟨m, hm, hl⟩ := hE .main n
    (fun m hm => henabled _ (E.reachable hinit m) (hstays m hm))
  have hs := E.step m
  rw [hl] at hs
  apply hnone ⟨m, hm, hstays m hm, hs⟩

/-! ### Points of `main` at which there is a step -/

/-- Where no call is in progress, `start` and `submit` can be called. -/
theorem Between.exists_call {life : List Pipeline.Event} {A : List (RawSample ℚ)}
    {p : Pipeline.State Unit ℚ} (h : Between I life A p) :
  (∃ p', I.PipelineStep p .control p' ∧ p'.core.control = .starting .preprocess true)
    ∧ ∀ sample, ∃ p', I.PipelineStep p (.submitter ()) p'
      ∧ p'.core.submitting () = some sample
  := by
  obtain ⟨hne, hs⟩ := h.reachable
  constructor
  · exact ⟨_, ⟨hne, .tau (Pipeline.ControlStep.invokeStart h.control)⟩, rfl⟩
  · intro sample
    have hidle := (Pipeline.synced_of_reachable hs).raw (.submitter ())
    rw [Pipeline.Core.rawCall, Pipeline.Core.calling, h.submitting] at hidle
    exact ⟨_, ⟨hne, .rawCall (Pipeline.SubmitStep.submit h.submitting sample) hidle⟩, by simp⟩

/-- While `start` is in progress, it can take a step. -/
theorem Launching.exists_step {p : Pipeline.State Unit ℚ} (h : Launching I p) :
  ∃ p', I.PipelineStep p .control p'
  := by
  obtain ⟨hne, hs⟩ := h.reachable
  obtain ⟨c', hc⟩ := h.launching.exists_step
  exact ⟨_, hne, .tau hc⟩

/-- While `start` is in progress, its thread waits in no queue. -/
theorem Launching.not_waits {p : Pipeline.State Unit ℚ} (h : Launching I p) :
  ¬ p.Waits .control
  := by
  obtain ⟨hne, hs⟩ := h.reachable
  apply (Pipeline.synced_of_reachable hs).not_waits_of_calling h.launching.calling

/-- Where no call is in progress, the thread that would make it waits in no queue. -/
theorem Between.not_waits {life : List Pipeline.Event} {A : List (RawSample ℚ)}
    {p : Pipeline.State Unit ℚ} (h : Between I life A p) :
  ¬ p.Waits .control ∧ ¬ p.Waits (.submitter ())
  := by
  obtain ⟨hne, hs⟩ := h.reachable
  have hsynced := Pipeline.synced_of_reachable hs
  constructor
  · apply hsynced.not_waits_of_calling
    rw [Pipeline.Core.calling, h.control]
    rfl
  · apply hsynced.not_waits_of_calling
    rw [Pipeline.Core.calling, h.submitting]
    rfl

/-- While `start` is in progress, `main` can take the steps of its thread. -/
theorem Launching.enabled {s : State} (hp : s.pc = .starting) {p p' : Pipeline.State Unit ℚ}
    (h : Launching I p) (hsome : s.pipeline = some p) (hstep : I.PipelineStep p .control p') :
  (system I).Enabled .main s
  := by
  obtain ⟨hgoing, -⟩ | hbetween := h.control hstep
  · refine ⟨_, .starts hp hsome hstep ?_⟩
    obtain ⟨k, ⟨hk, -⟩ | ⟨hk, -⟩⟩ := hgoing.launching <;> rw [hk] <;> simp
  · refine ⟨_, .startReturns hp hsome hstep hbetween.control ?_⟩
    rw [hbetween.lifecycle]
    rfl

/-! ### The start -/

/-- What `main` has to do until `start` has returned. -/
def State.hops (s : State) : ℕ :=
  match s.pc with
  | .boot => 9
  | .initializing => 8
  | .start => 7
  | .starting => (s.pipeline.map (fun p => p.core.control.hops)).getD 0
  | _ => 0

/-- `start` has not returned yet, and the configuration is accepted. -/
def State.Starts (s : State) : Prop :=
  s.pc = .boot ∨ s.pc = .initializing ∨ s.pc = .start ∨ s.pc = .starting

variable (hboot : I.booted.1.ok = true) (hload : I.loaded.1.ok = true) (hne : I.capacity ≠ 0)

include hboot hload hne

/-- Until `start` has returned, `main` can take a step. -/
theorem State.Starts.enabled {s : State} (h : s.Starts) (hs : s.Holds I) :
  s.Active .main ∧ (system I).Enabled .main s
  := by
  rw [State.Holds] at hs
  obtain hp | hp | hp | hp := h
  · rw [hp] at hs
    refine ⟨?_, _, .boots hp hboot⟩
    intro p u hsome
    cases hs.symm.trans hsome
  · rw [hp] at hs
    refine ⟨?_, _, .constructs hp hload hne⟩
    intro p u hsome
    cases hs.symm.trans hsome
  · rw [hp] at hs
    obtain ⟨p, hsome, hbetween, -⟩ := hs
    obtain ⟨⟨p', hstep, hcall⟩, -⟩ := hbetween.exists_call
    refine ⟨?_, _, .callStart hp hsome hstep hcall⟩
    rintro q u hq hu
    cases hsome.symm.trans hq
    rw [State.actor, hp] at hu
    cases hu
    apply hbetween.not_waits.1
  · rw [hp] at hs
    obtain ⟨p, hsome, hlaunching⟩ := hs
    obtain ⟨p', hstep⟩ := hlaunching.exists_step
    refine ⟨?_, hlaunching.enabled hp hsome hstep⟩
    rintro q u hq hu
    cases hsome.symm.trans hq
    rw [State.actor, hp] at hu
    cases hu
    apply hlaunching.not_waits

/-- With a step of `main`, `start` returns, or `main` has less to do until then. -/
theorem State.Starts.main {s s' : State} (h : s.Starts) (hs : s.Holds I)
    (hstep : Step I s .main s') :
  s'.pc = .started ∨ s'.Starts ∧ s'.hops < s.hops
  := by
  have hhops : ∀ c : Pipeline.ControlPc, c.hops < 7 := by
    intro c
    cases c <;> simp only [Pipeline.ControlPc.hops] <;> omega
  obtain hp | hp | hp | hp := h
  · cases hstep with
    | bootFails _ hfails => cases hfails.symm.trans hboot
    | boots =>
        right
        refine ⟨Or.inr (Or.inl rfl), ?_⟩
        rw [State.hops, State.hops, hp]
        apply Nat.lt_succ_self 8
    | _ hp' => cases hp.symm.trans hp'
  · cases hstep with
    | loadFails _ hfails => cases hfails.symm.trans hload
    | throws _ _ hzero => apply absurd hzero hne
    | constructs =>
        right
        refine ⟨Or.inr (Or.inr (Or.inl rfl)), ?_⟩
        rw [State.hops, State.hops, hp]
        apply Nat.lt_succ_self 7
    | _ hp' => cases hp.symm.trans hp'
  · cases hstep with
    | callStart =>
        right
        refine ⟨Or.inr (Or.inr (Or.inr rfl)), ?_⟩
        rw [State.hops, State.hops, hp]
        apply hhops
    | _ hp' => cases hp.symm.trans hp'
  · rw [State.Holds, hp] at hs
    obtain ⟨p, hsome, hlaunching⟩ := hs
    cases hstep with
    | starts _ hs' hstep hin =>
        cases hs'.symm.trans hsome
        right
        refine ⟨Or.inr (Or.inr (Or.inr hp)), ?_⟩
        obtain ⟨-, hlt⟩ | hbetween := hlaunching.control hstep
        · rw [State.hops, State.hops, hp, hsome]
          apply hlt
        · apply absurd hbetween.control hin
    | startReturns => exact Or.inl rfl
    | startFails _ hs' hstep hidle hok =>
        cases hs'.symm.trans hsome
        obtain ⟨hgoing, -⟩ | hbetween := hlaunching.control hstep
        · rw [hgoing.lifecycle] at hok
          cases hok
        · rw [hbetween.lifecycle] at hok
          cases hok
    | _ hp' => cases hp.symm.trans hp'

omit hboot hload hne in
/-- A step of a worker leaves what `main` has to do until `start` has returned. -/
theorem State.Starts.stage {s s' : State} {k : Pipeline.Stage} (h : s.Starts) (hs : s.Holds I)
    (hstep : Step I s (.stage k) s') :
  s'.Starts ∧ s'.hops = s.hops
  := by
  have hpc := hstep.pc_of_stage
  rw [State.Starts, State.hops, State.hops, hpc]
  refine ⟨h, ?_⟩
  obtain hp | hp | hp | hp := h
  · rw [hp]
  · rw [hp]
  · rw [hp]
  · rw [State.Holds, hp] at hs
    rw [hp]
    obtain ⟨p, hsome, hlaunching⟩ := hs
    cases hstep with
    | stage _ hs' hstep =>
        cases hs'.symm.trans hsome
        rw [hsome, Option.map_some, Option.map_some, (hlaunching.stage hstep).2]

/-- In a fair execution, `start` returns. -/
theorem Fair.started {E : (system I).Execution} (hE : Fair E) (hinit : E.state 0 = .initial) :
  ∃ m, (E.state m).pc = .started
  := by
  have hreach : (system I).Reachable (E.state 0) := .init hinit
  obtain ⟨m, -, hm⟩ : ∃ m, 0 ≤ m ∧ (E.state m).pc = .started := by
    apply E.reaches_of_measure State.hops (fun _ => Thread.main) (C := fun s => s.Active .main)
      (R := fun s => (system I).Reachable s ∧ s.Starts) (G := fun s => s.pc = .started)
    · rintro s ⟨hs, hstarts⟩
      apply (hstarts.enabled hboot hload hne (holds_of_reachable hs)).1
    · intro s _
      apply hE .main
    · rintro s ⟨hs, hstarts⟩
      apply (hstarts.enabled hboot hload hne (holds_of_reachable hs)).2
    · rintro s t s' ⟨hs, hstarts⟩ hstep
      have hholds := holds_of_reachable hs
      cases t with
      | main =>
          obtain hdone | ⟨hstarts', hlt⟩ := hstarts.main hboot hload hne hholds hstep
          · exact Or.inl hdone
          · exact Or.inr ⟨⟨hs.step hstep, hstarts'⟩, Or.inl hlt⟩
      | stage k =>
          obtain ⟨hstarts', hsame⟩ := hstarts.stage hholds hstep
          exact Or.inr ⟨⟨hs.step hstep, hstarts'⟩, Or.inr ⟨by simp, hsame, rfl⟩⟩
    · refine ⟨hreach, Or.inl ?_⟩
      rw [hinit]
      rfl
  exact ⟨m, hm⟩

omit hboot hload hne

/-! ### Executions of the pipeline -/

/-- The calls in progress are those that `main` is in: `start`, or `submit`. -/
theorem State.Holds.calls {s : State} (h : s.Holds I) {p : Pipeline.State Unit ℚ}
    (hs : s.pipeline = some p) :
  (p.core.control = .idle ∨ s.pc = .starting)
    ∧ (p.core.submitting () = none ∨ ∃ file sample, s.pc = .submitting file sample)
  := by
  rw [State.Holds] at h
  cases hp : s.pc with
  | boot | initializing =>
      rw [hp] at h
      cases hs.symm.trans h
  | start =>
      rw [hp] at h
      obtain ⟨p, hsome, hp, -⟩ := h
      cases hs.symm.trans hsome
      exact ⟨Or.inl hp.control, Or.inl hp.submitting⟩
  | starting =>
      rw [hp] at h
      obtain ⟨p, hsome, hp⟩ := h
      cases hs.symm.trans hsome
      exact ⟨Or.inr rfl, Or.inl hp.submitting⟩
  | started | looping =>
      rw [hp] at h
      obtain ⟨-, p, hsome, hp⟩ := h
      cases hs.symm.trans hsome
      exact ⟨Or.inl hp.control, Or.inl hp.submitting⟩
  | reading file sample | read file sample =>
      rw [hp] at h
      obtain ⟨-, p, A, hsome, hp, -⟩ := h
      cases hs.symm.trans hsome
      exact ⟨Or.inl hp.control, Or.inl hp.submitting⟩
  | submitting file sample =>
      rw [hp] at h
      obtain ⟨-, p, A, hsome, hp, -⟩ := h
      cases hs.symm.trans hsome
      exact ⟨Or.inl hp.control, Or.inr ⟨file, sample, rfl⟩⟩
  | stop | stopping =>
      rw [hp] at h
      apply h.elim
  | exited code =>
      rw [hp] at h
      cases hs.symm.trans h.2.1
  | terminated =>
      rw [hp] at h
      cases hs.symm.trans h.1

/-- While there is a pipeline, the process has not ended, and the construction of the pipeline is
past. -/
theorem State.Holds.alive {s : State} (h : s.Holds I) {p : Pipeline.State Unit ℚ}
    (hs : s.pipeline = some p) :
  ¬ s.pc.Ended ∧ s.pc ≠ .initializing
  := by
  rw [State.Holds] at h
  cases hp : s.pc with
  | initializing =>
      rw [hp] at h
      cases hs.symm.trans h
  | exited code =>
      rw [hp] at h
      cases hs.symm.trans h.2.1
  | terminated =>
      rw [hp] at h
      cases hs.symm.trans h.1
  | _ =>
      use id
      intro heq
      cases heq

/-- A worker that can take a step in the pipeline can take one in the program, with what its engine
answers. -/
theorem enabled_stage {s : State} (hs : (system I).Reachable s) {p : Pipeline.State Unit ℚ}
    (hsome : s.pipeline = some p) {k : Pipeline.Stage} {p' : Pipeline.State Unit ℚ}
    (hstep : I.PipelineStep p (.stage k) p') :
  (system I).Enabled (.stage k) s
  := by
  obtain ⟨hengine, -⟩ := unready_of_reachable hs
  obtain ⟨halive, -⟩ := (holds_of_reachable hs).alive hsome
  obtain ⟨hne, hstep⟩ := hstep
  have hsame : p'.core.inferred = p.core.inferred → (system I).Enabled (.stage k) s := by
    intro heq
    refine ⟨_, .stage halive hsome ⟨hne, hstep⟩ ?_⟩
    intro input a hsnoc
    rw [heq] at hsnoc
    simp at hsnoc
  by_cases hk : k = .inference
  · subst hk
    obtain ⟨a, hc, hraw, htensor, hresult⟩ | ⟨hcore, -⟩ := hstep.cases
    · generalize hcore : p'.core = c' at hc
      cases hc with
      | @infer input hp a =>
          refine ⟨_, .stage halive hsome
            ⟨hne, .tau (Pipeline.InferenceStep.infer hp ⟨false, .success, []⟩)⟩ ?_⟩
          intro input' a' hsnoc
          have hlast := List.append_cancel_left hsnoc
          cases hlast
          rw [hengine]
          exact ⟨rfl, nofun⟩
      | _ => exact hsame ((congrArg Pipeline.Core.inferred hcore).trans rfl)
    · apply hsame
      rw [hcore]
  · apply hsame
    apply inferred_of_ne hstep
    intro hk'
    cases hk'
    apply hk rfl

/-- Where `submit` is in progress, `main` can take the steps of its thread. -/
theorem enabled_submitting {s : State} {file : List Text} {sample : RawSample ℚ}
    (hp : s.pc = .submitting file sample) {p p' : Pipeline.State Unit ℚ}
    (hsome : s.pipeline = some p) (hstep : I.PipelineStep p (.submitter ()) p') :
  (system I).Enabled .main s
  := by
  by_cases hret : p'.core.submitting () = none
  · exact ⟨_, .submitReturns hp hsome hstep hret⟩
  · exact ⟨_, .submits hp hsome hstep hret⟩

/-- From a time on at which there is a pipeline, an execution of the program is one of the pipeline,
whose labels are the threads of the pipeline that act. -/
theorem exists_projection {E : (system I).Execution} (hinit : (system I).Reachable (E.state 0))
    {n : ℕ} {p : Pipeline.State Unit ℚ} (hp : (E.state n).pipeline = some p)
    (hne : I.capacity ≠ 0) :
  ∃ E' : (Pipeline.system Unit (I.params hne)).Execution,
    (∀ m, (E.state (n + m)).pipeline = some (E'.state m))
      ∧ ∀ m, E'.label m = (E.label (n + m)).bind (E.state (n + m)).actor
  := by
  have hnext : ∀ m p, (E.state (n + m)).pipeline = some p →
      ∃ p', (E.state (n + m + 1)).pipeline = some p'
        ∧ I.Projects p ((E.label (n + m)).bind (E.state (n + m)).actor) p' := by
    intro m p hp
    obtain ⟨-, hpc⟩ := (holds_of_reachable (E.reachable hinit (n + m))).alive hp
    have hs := E.step (n + m)
    cases hl : E.label (n + m) with
    | none =>
        rw [hl] at hs
        rw [hs]
        exact ⟨p, hp, rfl⟩
    | some t =>
        rw [hl] at hs
        apply Step.projects hs hpc hp
  have hexists : ∀ m, ∃ p, (E.state (n + m)).pipeline = some p := by
    intro m
    induction m with
    | zero => exact ⟨p, hp⟩
    | succ m ih =>
        obtain ⟨p, hp⟩ := ih
        obtain ⟨p', hp', -⟩ := hnext m p hp
        exact ⟨p', hp'⟩
  choose state hstate using hexists
  have hstep : ∀ m, I.Projects (state m) ((E.label (n + m)).bind (E.state (n + m)).actor)
      (state (m + 1)) := by
    intro m
    obtain ⟨p', hp', hproj⟩ := hnext m _ (hstate m)
    cases hp'.symm.trans (hstate (m + 1))
    apply hproj
  refine ⟨⟨state, fun m => (E.label (n + m)).bind (E.state (n + m)).actor, ?_⟩, hstate,
    fun m => rfl⟩
  intro m
  have hproj := hstep m
  revert hproj
  cases (E.label (n + m)).bind (E.state (n + m)).actor with
  | none => exact id
  | some t =>
      rintro ⟨_, hproj⟩
      apply hproj

/-- The execution of the pipeline in a fair execution of the program is fair. -/
theorem Fair.projection {E : (system I).Execution} (hE : Fair E)
    (hinit : (system I).Reachable (E.state 0)) {n : ℕ} {hne : I.capacity ≠ 0}
    {E' : (Pipeline.system Unit (I.params hne)).Execution}
    (hstate : ∀ m, (E.state (n + m)).pipeline = some (E'.state m))
    (hlabel : ∀ m, E'.label m = (E.label (n + m)).bind (E.state (n + m)).actor) :
  Pipeline.Fair E'
  := by
  intro u n' h
  have hacts : ∀ t, (∀ m, n' ≤ m → (E.state (n + m)).actor t = some u
      ∧ (system I).Enabled t (E.state (n + m))) → ∃ m, n' ≤ m ∧ E'.label m = some u := by
    intro t ht
    obtain ⟨m, hm, hl⟩ := hE t (n + n') (by
      intro m hm
      obtain ⟨j, rfl⟩ := Nat.exists_eq_add_of_le (Nat.le_of_add_right_le hm)
      have hj : n' ≤ j := by omega
      obtain ⟨hactor, henabled⟩ := ht j hj
      refine ⟨?_, henabled⟩
      intro p v hp hv
      cases (hstate j).symm.trans hp
      cases hactor.symm.trans hv
      apply (h j hj).1.1)
    obtain ⟨j, rfl⟩ := Nat.exists_eq_add_of_le (Nat.le_of_add_right_le hm)
    have hj : n' ≤ j := by omega
    use j, hj
    rw [hlabel, hl]
    apply (ht j hj).1
  have hholds := fun m => holds_of_reachable (E.reachable hinit (n + m))
  cases u with
  | stage k =>
      apply hacts (.stage k)
      intro m hm
      obtain ⟨-, p', hstep⟩ := h m hm
      exact ⟨rfl, enabled_stage (E.reachable hinit _) (hstate m) ⟨hne, hstep⟩⟩
  | control =>
      apply hacts .main
      intro m hm
      obtain ⟨⟨-, hcontrol, -⟩, p', hstep⟩ := h m hm
      obtain ⟨hidle | hp, -⟩ := (hholds m).calls (hstate m)
      · apply absurd hidle (hcontrol rfl)
      · have hlaunching := hholds m
        rw [State.Holds, hp] at hlaunching
        obtain ⟨p, hsome, hlaunching⟩ := hlaunching
        cases (hstate m).symm.trans hsome
        refine ⟨?_, hlaunching.enabled hp (hstate m) ⟨hne, hstep⟩⟩
        rw [State.actor, hp]
  | submitter i =>
      apply hacts .main
      intro m hm
      obtain ⟨⟨-, -, hsubmitting⟩, p', hstep⟩ := h m hm
      obtain ⟨-, hnone | ⟨file, sample, hp⟩⟩ := (hholds m).calls (hstate m)
      · apply absurd hnone (hsubmitting () rfl)
      · refine ⟨?_, enabled_submitting hp (hstate m) ⟨hne, hstep⟩⟩
        rw [State.actor, hp]

/-! ### The replay -/

/-- In a fair execution, a call of `submit` returns. -/
theorem Fair.returns {E : (system I).Execution} (hE : Fair E)
    (hinit : (system I).Reachable (E.state 0)) {n : ℕ} {file : List Text} {sample : RawSample ℚ}
    (h : (E.state n).pc = .submitting file sample) :
  ∃ m, n ≤ m ∧ (E.state m).pc = .reading file sample
  := by
  have hholds := fun m => holds_of_reachable (E.reachable hinit m)
  have hn := hholds n
  rw [State.Holds, h] at hn
  obtain ⟨-, p, A, hp, ⟨⟨hne, hcalling⟩, -, -⟩, -⟩ := hn
  obtain ⟨E', hstate, hlabel⟩ := exists_projection hinit hp hne
  have hzero : p = E'.state 0 := by
    cases hp.symm.trans (hstate 0)
    rfl
  rw [hzero] at hcalling
  obtain ⟨j, -, hcalled | ⟨hnone, -⟩⟩ := hcalling.accepts (hE.projection hinit hstate hlabel)
  · apply absurd hcalled ((hholds (n + j)).pipeline (hstate j)).2.1
  · by_contra hnever
    have hstays : ∀ m, n ≤ m → (E.state m).pc = .submitting file sample := by
      intro m hm
      induction m, hm using Nat.le_induction with
      | base => apply h
      | succ m hm ih =>
          have hs := E.step m
          cases hl : E.label m with
          | none =>
              rw [hl] at hs
              rw [hs]
              apply ih
          | some t =>
              rw [hl] at hs
              have hs : Step I (E.state m) t (E.state (m + 1)) := hs
              cases t with
              | stage k => apply hs.pc_of_stage.trans ih
              | main =>
                  generalize hs' : E.state (m + 1) = s' at hs
                  cases hs with
                  | submits => apply ih
                  | submitReturns hp' =>
                      cases ih.symm.trans hp'
                      apply absurd ⟨m + 1, Nat.le_succ_of_le hm, by rw [hs']⟩ hnever
                  | _ hp' => cases ih.symm.trans hp'
    have hj := hholds (n + j)
    rw [State.Holds, hstays (n + j) (Nat.le_add_right n j)] at hj
    obtain ⟨-, q, A', hq, ⟨⟨_, hsubmitting⟩, -, -⟩, -⟩ := hj
    cases hq.symm.trans (hstate j)
    cases hnone.symm.trans hsubmitting.submitting

/-- Before a line is read, `main` can take a step. -/
theorem enabled_reading {s : State} {file : List Text} {sample : RawSample ℚ}
    (hp : s.pc = .reading file sample) :
  s.Active .main ∧ (system I).Enabled .main s
  := by
  constructor
  · rintro p u - hu
    rw [State.actor, hp] at hu
    cases hu
  · obtain ⟨ok, rest, sample', hread⟩ :
        ∃ ok rest sample', CsvSensor.read I.F file sample = (ok, rest, sample') :=
      ⟨_, _, _, rfl⟩
    cases ok with
    | false => exact ⟨_, .readFails hp (by rw [hread])⟩
    | true => exact ⟨_, .reads hp hread⟩

/-- Past a read that succeeded, `main` can take a step. -/
theorem enabled_read {s : State} (hs : s.Holds I) {file : List Text} {sample : RawSample ℚ}
    (hp : s.pc = .read file sample) :
  s.Active .main ∧ (system I).Enabled .main s
  := by
  rw [State.Holds, hp] at hs
  obtain ⟨hrunning, p, A, hsome, hbetween, -⟩ := hs
  constructor
  · rintro q u hq hu
    cases hsome.symm.trans hq
    simp only [State.actor, hp, hrunning, if_true] at hu
    cases hu
    apply hbetween.not_waits.2
  · obtain ⟨p', hstep, hcall⟩ := hbetween.exists_call.2 sample
    exact ⟨_, .callSubmit hp hrunning hsome hstep hcall⟩

/-- In a fair execution, `main` reads the lines of the file, submits their samples, and leaves
`initialize`. -/
theorem Fair.replays {E : (system I).Execution} (hE : Fair E)
    (hinit : (system I).Reachable (E.state 0)) {file : List Text} {sample : RawSample ℚ} {n : ℕ}
    (h : (E.state n).pc = .reading file sample) :
  ∃ m, n ≤ m ∧ (E.state m).pc = .looping
  := by
  induction file generalizing sample n with
  | nil =>
      obtain ⟨m, hm, hp, hstep⟩ := hE.main hinit (fun s _ hp => enabled_reading hp) h
      refine ⟨m + 1, Nat.le_succ_of_le hm, ?_⟩
      generalize E.state (m + 1) = s' at hstep
      cases hstep with
      | readFails => rfl
      | reads hp' hread =>
          cases hp.symm.trans hp'
          cases hread
      | _ hp' => cases hp.symm.trans hp'
  | cons line lines ih =>
      obtain ⟨m, hm, hp, hstep⟩ := hE.main hinit (fun s _ hp => enabled_reading hp) h
      generalize hs' : E.state (m + 1) = s' at hstep
      cases hstep with
      | readFails =>
          refine ⟨m + 1, Nat.le_succ_of_le hm, ?_⟩
          rw [hs']
      | @reads file rest sample₀ sample' hp' hread =>
          cases hp.symm.trans hp'
          obtain ⟨-, rfl, -⟩ : _ ∧ lines = _ ∧ _ := by
            rw [CsvSensor.read, Prod.mk.injEq, Prod.mk.injEq] at hread
            apply hread
          have hp₁ : (E.state (m + 1)).pc = .read lines sample' := by rw [hs']
          obtain ⟨m₁, hm₁, hp₁, hstep₁⟩ :=
            hE.main hinit (fun s hs hp => enabled_read (holds_of_reachable hs) hp) hp₁
          have hp₂ : (E.state (m₁ + 1)).pc = .submitting lines sample' := by
            have hholds := holds_of_reachable (E.reachable hinit m₁)
            rw [State.Holds, hp₁] at hholds
            generalize E.state (m₁ + 1) = s₁ at hstep₁
            cases hstep₁ with
            | leavesReplay hp' hr => cases hr.symm.trans hholds.1
            | callSubmit hp' =>
                cases hp₁.symm.trans hp'
                rfl
            | _ hp' => cases hp₁.symm.trans hp'
          obtain ⟨m₂, hm₂, hp₂⟩ := hE.returns hinit hp₂
          obtain ⟨m₃, hm₃, hp₃⟩ := ih hp₂
          exact ⟨m₃, by omega, hp₃⟩
      | _ hp' => cases hp.symm.trans hp'

include hboot hload hne in
/-- In a fair execution, `main` gets into the loop of `run`, where it stays. -/
theorem Fair.looping {E : (system I).Execution} (hE : Fair E) (hinit : E.state 0 = .initial) :
  ∃ n, ∀ m, n ≤ m → (E.state m).pc = .looping
  := by
  have hreach : (system I).Reachable (E.state 0) := .init hinit
  obtain ⟨n₀, hstarted⟩ := hE.started hboot hload hne hinit
  have henabled : ∀ s : State, s.pc = .started →
      s.Active .main ∧ (system I).Enabled .main s := by
    intro s hp
    constructor
    · rintro p u - hu
      rw [State.actor, hp] at hu
      cases hu
    · cases hfile : I.replayFile with
      | none => exact ⟨_, .noReplay hp hfile⟩
      | some file => exact ⟨_, .opens hp hfile⟩
  obtain ⟨m, -, hp, hstep⟩ := hE.main hreach (fun s _ hp => henabled s hp) hstarted
  obtain ⟨n, hn⟩ : ∃ n, (E.state n).pc = .looping := by
    generalize hs' : E.state (m + 1) = s' at hstep
    cases hstep with
    | noReplay => exact ⟨m + 1, by rw [hs']⟩
    | @opens file hp' hfile =>
        have hreading : (E.state (m + 1)).pc = .reading file (RawSample.default ℚ) := by rw [hs']
        obtain ⟨n, -, hn⟩ := hE.replays hreach hreading
        exact ⟨n, hn⟩
    | _ hp' => cases hp.symm.trans hp'
  use n
  intro m hm
  induction m, hm using Nat.le_induction with
  | base => apply hn
  | succ m hm ih =>
      have hholds := holds_of_reachable (E.reachable hreach m)
      rw [State.Holds, ih] at hholds
      have hs := E.step m
      cases hl : E.label m with
      | none =>
          rw [hl] at hs
          rw [hs]
          apply ih
      | some t =>
          rw [hl] at hs
          have hs : Step I (E.state m) t (E.state (m + 1)) := hs
          cases t with
          | stage k => apply hs.pc_of_stage.trans ih
          | main =>
              generalize E.state (m + 1) = s' at hs
              cases hs with
              | leavesRun _ hr => cases hr.symm.trans hholds.1
              | _ hp' => cases ih.symm.trans hp'

/-- In a fair execution, once `main` is in the loop of `run` for good, all complete blocks of the
samples of the file are delivered. -/
theorem Fair.delivers {E : (system I).Execution} (hE : Fair E)
    (hinit : (system I).Reachable (E.state 0)) {n : ℕ}
    (hlooping : ∀ m, n ≤ m → (E.state m).pc = .looping) :
  ∃ n', n ≤ n' ∧ ∀ m, n' ≤ m → (E.state m).pc = .looping
    ∧ ∃ p, (E.state m).pipeline = some p
      ∧ BlockingQueue.accepted p.raw_queue.log = I.replayed
      ∧ p.core.callbacks.length = I.replayed.length / kTargetLength
  := by
  have hbetween : ∀ m, n ≤ m → ∃ p, (E.state m).pipeline = some p
      ∧ Between I [.started true] I.replayed p := by
    intro m hm
    have hholds := holds_of_reachable (E.reachable hinit m)
    rw [State.Holds, hlooping m hm] at hholds
    apply hholds.2
  obtain ⟨p, hp, hp'⟩ := hbetween n (le_refl n)
  obtain ⟨hne, -⟩ := hp'.reachable
  obtain ⟨E', hstate, hlabel⟩ := exists_projection hinit hp hne
  have hstays : ∀ m, Between I [.started true] I.replayed (E'.state m) := by
    intro m
    obtain ⟨q, hq, hbetween⟩ := hbetween (n + m) (Nat.le_add_right n m)
    cases hq.symm.trans (hstate m)
    apply hbetween
  have hup : ∀ m, (E'.state m).core.Up :=
    fun m => up_of_started (hstays m).control (hstays m).lifecycle
  have hreach : ∀ m, (Pipeline.system Unit (I.params hne)).Reachable (E'.state m) := by
    intro m
    obtain ⟨_, hs⟩ := (hstays m).reachable
    apply hs
  have hblocks : ∀ m, (E'.state m).blocks = I.replayed.length / kTargetLength := by
    intro m
    rw [Pipeline.State.blocks, Pipeline.State.acceptedCount, (hstays m).accepted]
  obtain ⟨j, hj⟩ : ∃ j, I.replayed.length / kTargetLength ≤ (E'.state j).core.callbacks.length := by
    by_cases hle : I.replayed.length / kTargetLength ≤ (E'.state 0).core.callbacks.length
    · exact ⟨0, hle⟩
    · have hawaiting : Pipeline.Awaiting (I.params hne) (I.replayed.length / kTargetLength - 1)
          (E'.state 0) := by
        refine ⟨hreach 0, hup 0, by omega, ?_⟩
        rw [(hstays 0).accepted, ← Nat.le_div_iff_mul_le (by decide)]
        omega
      obtain ⟨j, -, hcalled | hlt⟩ := hawaiting.delivers (hE.projection hinit hstate hlabel)
      · apply absurd hcalled (hup j).2
      · exact ⟨j, by omega⟩
  refine ⟨n + j, Nat.le_add_right n j, ?_⟩
  intro m hm
  obtain ⟨i, rfl⟩ := Nat.exists_eq_add_of_le (Nat.le_of_add_right_le hm)
  refine ⟨hlooping _ (Nat.le_add_right n i), E'.state i, hstate i, (hstays i).accepted, ?_⟩
  have hprefix : (E'.state j).core.callbacks <+: (E'.state i).core.callbacks := by
    have hji : j ≤ i := by omega
    apply E'.stable (P := fun s => (E'.state j).core.callbacks <+: s.core.callbacks) _ _ i hji
    · intro s t s' hs hstep
      apply hs.trans (Pipeline.Step.callbacks_prefix hstep)
    · apply List.prefix_refl
  have hle : (E'.state i).blocks ≤ (E'.state i).core.callbacks.length := by
    rw [hblocks i]
    apply hj.trans hprefix.length_le
  obtain ⟨⟨hcallbacks, -⟩, -⟩ := Pipeline.nothing_of_delivered (hreach i) (hup i) hle
  rw [hcallbacks, hblocks i]

end App
