import PipeAI.Pipeline.Lifecycle

/-!
# The first start

The workers of a pipeline that has just been constructed are idle.  The first call of `start` takes
their flags one after the other, assigns their threads, and returns true, whatever the threads that
run already do (`Core.Launching.control`).
-/

namespace Pipeline

variable {σ K : Type}

/-- The first call of `start` is in progress: the flags of the workers before the one it is at have
been taken, and those after it are idle. -/
def Core.Launching (c : Core σ K) : Prop :=
  ∃ k : Stage, (c.control = .starting k true ∧ ∀ j : Stage, k.index ≤ j.index → c.worker j = .idle)
    ∨ (c.control = .assigning k true ∧ c.worker k = ⟨true, none⟩
      ∧ ∀ j : Stage, k.index < j.index → c.worker j = .idle)

/-- The steps that `start` has still to take. -/
def ControlPc.hops : ControlPc → ℕ
  | .starting k _ => 6 - 2 * k.index
  | .assigning k _ => 5 - 2 * k.index
  | _ => 0

/-- The call of `start` goes on. -/
theorem Core.Launching.nextStart {c : Core σ K} {k : Stage}
    (hidle : ∀ j : Stage, k.index < j.index → c.worker j = .idle) :
  ((c.nextStart k true).Launching ∧ (c.nextStart k true).lifecycle = c.lifecycle
      ∧ (c.nextStart k true).control.hops < 5 - 2 * k.index)
    ∨ (c.nextStart k true).control = .idle
      ∧ (c.nextStart k true).lifecycle = c.lifecycle ++ [.started true]
  := by
  cases k with
  | preprocess =>
      left
      have hlt : (ControlPc.starting .inference true).hops < 5 - 2 * Stage.preprocess.index := by
        decide
      exact ⟨⟨.inference, Or.inl ⟨rfl, hidle⟩⟩, rfl, hlt⟩
  | inference =>
      left
      have hlt : (ControlPc.starting .post true).hops < 5 - 2 * Stage.inference.index := by
        decide
      exact ⟨⟨.post, Or.inl ⟨rfl, hidle⟩⟩, rfl, hlt⟩
  | post => exact Or.inr ⟨rfl, rfl⟩

/-- A step of `start` leads on, or it is the return, with the value true. -/
theorem Core.Launching.control {c c' : Core σ K} {a : Action K} (h : c.Launching)
    (hstep : ControlStep c a c') :
  (c'.Launching ∧ c'.lifecycle = c.lifecycle ∧ c'.control.hops < c.control.hops)
    ∨ c'.control = .idle ∧ c'.lifecycle = c.lifecycle ++ [.started true]
  := by
  obtain ⟨k, ⟨hp, hidle⟩ | ⟨hp, hw, hidle⟩⟩ := h
  · cases hstep with
    | startLoses hp' hx =>
        cases hp.symm.trans hp'
        rw [hidle k (le_refl _)] at hx
        cases hx
    | startWins hp' hx =>
        cases hp.symm.trans hp'
        left
        refine ⟨⟨k, Or.inr ⟨rfl, ?_, ?_⟩⟩, rfl, ?_⟩
        · rw [hidle k (le_refl _)]
          apply Function.update_self
        · intro j hj
          have hne : j ≠ k := by
            rintro rfl
            apply lt_irrefl _ hj
          exact (Function.update_of_ne hne ..).trans (hidle j hj.le)
        · have hlt : (ControlPc.assigning k true).hops < (ControlPc.starting k true).hops := by
            cases k <;> decide
          rw [hp]
          apply hlt
    | _ hp' => cases hp.symm.trans hp'
  · cases hstep with
    | assign hp' hw' =>
        cases hp.symm.trans hp'
        have hidle' : ∀ (w : Worker) (j : Stage), k.index < j.index →
            (c.setWorker k w).worker j = .idle := by
          intro w j hj
          have hne : j ≠ k := by
            rintro rfl
            apply lt_irrefl _ hj
          exact (Function.update_of_ne hne ..).trans (hidle j hj)
        rw [hp]
        apply Core.Launching.nextStart (hidle' _)
    | _ hp' => cases hp.symm.trans hp'

/-- While the call is in progress, `start` can take a step. -/
theorem Core.Launching.exists_step {c : Core σ K} (h : c.Launching) :
  ∃ c', ControlStep c .tau c'
  := by
  obtain ⟨k, ⟨hp, hidle⟩ | ⟨hp, hw, -⟩⟩ := h
  · have hx : ((c.worker k).exchange true).1 = false := by
      rw [hidle k (le_refl _)]
      rfl
    exact ⟨_, .startWins hp hx⟩
  · have hassign : (c.worker k).assign = some ⟨true, some .test⟩ := by
      rw [hw]
      rfl
    exact ⟨_, .assign hp hassign⟩

/-- The call of `start` is not at a call of a queue. -/
theorem Core.Launching.calling {c : Core σ K} (h : c.Launching) :
  c.calling .control = none
  := by
  obtain ⟨k, ⟨hp, -⟩ | ⟨hp, -⟩⟩ := h <;> rw [Core.calling, hp] <;> rfl

variable [Field K] [LinearOrder K] [DecidableEq σ] {P : Params K}

/-- A worker without a thread is left alone by the steps of the workers and of `submit`. -/
theorem CoreStep.worker_of_none {c c' : Core σ K} {t : Thread σ} {a : Action K} {j : Stage}
    (h : CoreStep P c t a c') (hatt : Attached c) (ht : t ≠ .control)
    (hn : (c.worker j).thread = none) :
  c'.worker j = c.worker j
  := by
  by_cases hj : t = .stage j
  · subst hj
    cases h.loopStep with
    | inside hw hc hc' => rw [hw]
    | enter hthread hr hw hc' => cases hn.symm.trans hthread
    | exit hthread hr hw hc' => cases hn.symm.trans hthread
    | leave hw hc hc' => cases hn.symm.trans ((hatt j).mpr hc)
  · apply h.worker hj ht

/-- The steps of the other threads leave the call of `start` in progress. -/
theorem Core.Launching.other {s s' : State σ K} {t : Thread σ} (h : s.core.Launching)
    (hs : (system σ P).Reachable s) (hstep : Step P s t s') (ht : t ≠ .control) :
  s'.core.Launching
  := by
  obtain ⟨a, hc, -⟩ | ⟨hcore, -⟩ := hstep.cases
  · have hatt := attached_of_reachable hs
    obtain ⟨k, ⟨hp, hidle⟩ | ⟨hp, hw, hidle⟩⟩ := h
    · use k
      left
      rw [(hc.control ht).1]
      refine ⟨hp, ?_⟩
      intro j hj
      rw [hc.worker_of_none hatt ht, hidle j hj]
      rw [hidle j hj]
      rfl
    · use k
      right
      rw [(hc.control ht).1, hc.worker_of_none hatt ht (by rw [hw])]
      refine ⟨hp, hw, ?_⟩
      intro j hj
      rw [hc.worker_of_none hatt ht, hidle j hj]
      rw [hidle j hj]
      rfl
  · rw [hcore]
    apply h

end Pipeline
