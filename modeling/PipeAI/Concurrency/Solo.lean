import PipeAI.Concurrency.Monitor
import Mathlib.Logic.Relation

/-!
# A thread on its own

When no other thread is inside a monitor, a thread can go through an operation whose
predicate holds without interference: its section runs, its signals find no waiter, and it
returns (`solo`).
-/

universe u v w x y

namespace Monitor

variable {S : Type u} {Cond : Type v} {Op : Type w} {Ret : Type x} {τ : Type y}

/-- The monitor with no thread inside of it. -/
def calm (Cond : Type v) (σ : S) (log : List (τ × Op × Ret)) : State S Cond Op Ret τ where
  shared := σ
  phase := fun _ => .idle
  log := log

variable [DecidableEq τ] [DecidableEq Cond]

/-- The monitor with one thread inside of it. -/
def alone (σ : S) (t : τ) (p : Phase Cond Op Ret) (log : List (τ × Op × Ret)) :
    State S Cond Op Ret τ where
  shared := σ
  phase := Function.update (fun _ => .idle) t p
  log := log

omit [DecidableEq Cond] in
@[simp]
theorem alone_phase_self (σ : S) (t : τ) (p : Phase Cond Op Ret) (log : List (τ × Op × Ret)) :
  (alone σ t p log).phase t = p
  := by
  simp [alone]

omit [DecidableEq Cond] in
theorem calm_call (σ : S) (log : List (τ × Op × Ret)) (t : τ) (op : Op) :
  (calm Cond σ log).call t op = alone σ t (.entering op) log
  := rfl

omit [DecidableEq Cond] in
theorem alone_setPhase (σ : S) (t : τ) (p q : Phase Cond Op Ret) (log : List (τ × Op × Ret)) :
  (alone σ t p log).setPhase t q = alone σ t q log
  := by
  simp [alone, State.setPhase]

omit [DecidableEq Cond] in
theorem alone_ret (σ : S) (t : τ) (p : Phase Cond Op Ret) (log : List (τ × Op × Ret)) :
  (alone σ t p log).ret t = calm Cond σ log
  := by
  rw [State.ret, alone_setPhase]
  simp [alone, calm]

/-- A thread alone in the monitor sends its signals to nobody. -/
theorem send_alone (M : Monitor S Cond Op Ret) (σ : S) (t : τ) (r : Ret)
    (pending : List (Signal Cond)) (log : List (τ × Op × Ret)) :
  Relation.ReflTransGen (fun s s' => M.Internal s t s') (alone σ t (.leaving r pending) log)
    (alone σ t (.leaving r []) log)
  := by
  induction pending with
  | nil => apply Relation.ReflTransGen.refl
  | cons signal pending ih =>
      apply Relation.ReflTransGen.head _ ih
      have hstep : alone σ t (.leaving r pending) log
          = (alone σ t (.leaving r (signal :: pending)) log).setPhase t (.leaving r pending) := by
        rw [alone_setPhase]
      have hidle : ∀ u, u ≠ t → (alone σ t (.leaving r (signal :: pending)) log :
          State S Cond Op Ret τ).phase u = .idle := by
        intro u hu
        apply Function.update_of_ne hu
      rw [hstep]
      cases signal with
      | one c =>
          apply Internal.notifyNone (alone_phase_self ..)
          intro u
          by_cases hu : u = t
          · subst hu
            rw [alone_phase_self]
            apply id
          · rw [hidle u hu]
            apply id
      | all c =>
          have hwake : (alone σ t (.leaving r (.all c :: pending)) log).setPhase t
                (.leaving r pending)
              = { alone σ t (.leaving r (.all c :: pending)) log with
                  phase := fun u => M.wakeAll c
                    (((alone σ t (.leaving r (.all c :: pending)) log).setPhase t
                      (.leaving r pending)).phase u) } := by
            rw [alone_setPhase]
            simp only [alone]
            congr 1
            funext u
            by_cases hu : u = t
            · subst hu
              rw [Function.update_self]
              rfl
            · rw [Function.update_of_ne hu]
              rfl
          rw [hwake]
          apply Internal.notifyAll (alone_phase_self ..)

/-- A thread alone in the monitor gets through an operation whose predicate holds. -/
theorem solo (M : Monitor S Cond Op Ret) {σ : S} (t : τ) {op : Op} (log : List (τ × Op × Ret))
    (h : M.ready op σ = true) :
  Relation.ReflTransGen (fun s s' => M.Internal s t s') ((calm Cond σ log).call t op)
    (alone (M.body op σ).2 t (.leaving (M.body op σ).1 [])
      (log ++ [(t, op, (M.body op σ).1)]))
  := by
  apply Relation.ReflTransGen.head _ (M.send_alone ..)
  · exact M.signals op (M.body op σ).1
  · have hact := Internal.act (M := M) (s := alone σ t (.entering op) log) (t := t)
      (Or.inl (alone_phase_self ..)) h
    rw [calm_call]
    simpa [State.commit, alone] using hact

end Monitor
