import PipeAI.Concurrency.TransitionSystem
import Mathlib.Data.List.Induction
import Mathlib.Logic.Function.Basic

/-!
# Monitors with condition variables

A monitor is a shared state guarded by one mutex, with operations that wait on a condition
variable until a predicate of the shared state holds, then run a body under the mutex, and
send signals after they have released it.  A wait may be timed: when the time is up, the
operation evaluates its predicate once more and gives up if it fails.

The sections under the mutex are atomic steps.  A thread that waits has released the mutex
and is in the waiter set of its condition variable; it leaves the set when it is signalled,
when its time is up, or spuriously, and then has to evaluate the predicate again.  Sending
a signal is a step of its own.

`Internal.cases` says what a step can do to the shared state: nothing, or the one effect of
the operation of the acting thread, which the log records.  Hence the log of every reachable
state is a sequential run of the operations that ends in the shared state
(`sequential_of_reachable`).
-/

universe u v w x y

/-- What is sent to the waiters of a condition variable: a signal for one of them, or for
all of them. -/
inductive Signal (Cond : Type v) where
  | one (c : Cond)
  | all (c : Cond)
  deriving DecidableEq

/-- A monitor: the condition variable each operation waits on, the predicate it waits for, its
body, the signals it sends given the value it returns, and the value a timed operation
returns when it gives up. -/
structure Monitor (S : Type u) (Cond : Type v) (Op : Type w) (Ret : Type x) where
  cond : Op → Option Cond
  ready : Op → S → Bool
  body : Op → S → Ret × S
  signals : Op → Ret → List (Signal Cond)
  timeout : Op → Option Ret

namespace Monitor

/-- Where a thread is in the code of the monitor: outside of it; before its first evaluation
of the predicate; in the waiter set; out of the waiter set, before it evaluates the
predicate again, its time being up or not; past its section, with signals still to send. -/
inductive Phase (Cond : Type v) (Op : Type w) (Ret : Type x) where
  | idle
  | entering (op : Op)
  | waiting (op : Op)
  | woken (op : Op) (timedOut : Bool)
  | leaving (r : Ret) (pending : List (Signal Cond))

/-- What a phase says about the effect of the operation: there is no operation, its effect is
still to come, or it has taken effect and returns a value. -/
inductive View (Op : Type w) (Ret : Type x) where
  | idle
  | before (op : Op)
  | after (r : Ret)

/-- A monitor at work: the shared state, the phase of every thread, and the operations that
have taken effect, oldest first. -/
structure State (S : Type u) (Cond : Type v) (Op : Type w) (Ret : Type x) (τ : Type y) where
  shared : S
  phase : τ → Phase Cond Op Ret
  log : List (τ × Op × Ret)

variable {S : Type u} {Cond : Type v} {Op : Type w} {Ret : Type x} {τ : Type y}

/-- The view of a phase. -/
def Phase.view : Phase Cond Op Ret → View Op Ret
  | .idle => .idle
  | .entering op => .before op
  | .waiting op => .before op
  | .woken op _ => .before op
  | .leaving r _ => .after r

@[simp]
theorem Phase.view_idle :
  (Phase.idle : Phase Cond Op Ret).view = .idle
  := rfl

@[simp]
theorem Phase.view_entering (op : Op) :
  (Phase.entering op : Phase Cond Op Ret).view = .before op
  := rfl

@[simp]
theorem Phase.view_waiting (op : Op) :
  (Phase.waiting op : Phase Cond Op Ret).view = .before op
  := rfl

@[simp]
theorem Phase.view_woken (op : Op) (b : Bool) :
  (Phase.woken op b : Phase Cond Op Ret).view = .before op
  := rfl

@[simp]
theorem Phase.view_leaving (r : Ret) (pending : List (Signal Cond)) :
  (Phase.leaving r pending : Phase Cond Op Ret).view = .after r
  := rfl

/-- A phase with no operation is outside of the monitor. -/
theorem Phase.eq_idle_of_view {p : Phase Cond Op Ret} (h : p.view = .idle) :
  p = .idle
  := by
  cases p with
  | idle => rfl
  | entering op => cases h
  | waiting op => cases h
  | woken op b => cases h
  | leaving r pending => cases h

/-- A phase whose operation has taken effect is past its section. -/
theorem Phase.eq_leaving_of_view {p : Phase Cond Op Ret} {r : Ret} (h : p.view = .after r) :
  ∃ pending, p = .leaving r pending
  := by
  cases p with
  | idle => cases h
  | entering op => cases h
  | waiting op => cases h
  | woken op b => cases h
  | leaving r' pending =>
      cases h
      use pending

/-- The thread is in a waiter set. -/
def Phase.Waits (p : Phase Cond Op Ret) : Prop :=
  ∃ op, p = .waiting op

/-- The thread is about to evaluate the predicate of `op`. -/
def Phase.Checks (p : Phase Cond Op Ret) (op : Op) : Prop :=
  p = .entering op ∨ ∃ b, p = .woken op b

variable [DecidableEq τ]

namespace State

/-- The state with the phase of the thread `t` replaced. -/
def setPhase (s : State S Cond Op Ret τ) (t : τ) (p : Phase Cond Op Ret) :
    State S Cond Op Ret τ :=
  { s with phase := Function.update s.phase t p }

/-- The state after the thread `t` has called the operation `op`. -/
def call (s : State S Cond Op Ret τ) (t : τ) (op : Op) : State S Cond Op Ret τ :=
  s.setPhase t (.entering op)

/-- The state after the thread `t` has returned from its operation. -/
def ret (s : State S Cond Op Ret τ) (t : τ) : State S Cond Op Ret τ :=
  s.setPhase t .idle

/-- The state after the operation `op` of the thread `t` has taken effect. -/
def commit (s : State S Cond Op Ret τ) (t : τ) (op : Op) (r : Ret) (σ : S)
    (pending : List (Signal Cond)) : State S Cond Op Ret τ where
  shared := σ
  phase := Function.update s.phase t (.leaving r pending)
  log := s.log ++ [(t, op, r)]

@[simp]
theorem setPhase_shared (s : State S Cond Op Ret τ) (t : τ) (p : Phase Cond Op Ret) :
  (s.setPhase t p).shared = s.shared
  := rfl

@[simp]
theorem setPhase_log (s : State S Cond Op Ret τ) (t : τ) (p : Phase Cond Op Ret) :
  (s.setPhase t p).log = s.log
  := rfl

@[simp]
theorem setPhase_phase_self (s : State S Cond Op Ret τ) (t : τ) (p : Phase Cond Op Ret) :
  (s.setPhase t p).phase t = p
  := Function.update_self ..

@[simp]
theorem commit_shared (s : State S Cond Op Ret τ) (t : τ) (op : Op) (r : Ret) (σ : S)
    (pending : List (Signal Cond)) :
  (s.commit t op r σ pending).shared = σ
  := rfl

@[simp]
theorem commit_phase_self (s : State S Cond Op Ret τ) (t : τ) (op : Op) (r : Ret) (σ : S)
    (pending : List (Signal Cond)) :
  (s.commit t op r σ pending).phase t = .leaving r pending
  := Function.update_self ..

theorem setPhase_phase_of_ne (s : State S Cond Op Ret τ) {t u : τ} (p : Phase Cond Op Ret)
    (h : u ≠ t) :
  (s.setPhase t p).phase u = s.phase u
  := Function.update_of_ne h ..

end State

/-- The phase is in the waiter set of the condition variable `c`. -/
def WaitsOn (M : Monitor S Cond Op Ret) (c : Cond) : Phase Cond Op Ret → Prop
  | .waiting op => M.cond op = some c
  | _ => False

/-- The phase after the condition variable `c` has been signalled to all its waiters. -/
def wakeAll [DecidableEq Cond] (M : Monitor S Cond Op Ret) (c : Cond) :
    Phase Cond Op Ret → Phase Cond Op Ret
  | .waiting op => if M.cond op = some c then .woken op false else .waiting op
  | p => p

@[simp]
theorem view_wakeAll [DecidableEq Cond] (M : Monitor S Cond Op Ret) (c : Cond)
    (p : Phase Cond Op Ret) :
  (M.wakeAll c p).view = p.view
  := by
  cases p with
  | waiting op =>
      simp only [wakeAll]
      split <;> rfl
  | _ => rfl

/-- The steps of a thread inside an operation of the monitor. -/
inductive Internal [DecidableEq Cond] (M : Monitor S Cond Op Ret) :
    State S Cond Op Ret τ → τ → State S Cond Op Ret τ → Prop where
  /-- The predicate holds: the body runs in the same section. -/
  | act {s : State S Cond Op Ret τ} {t : τ} {op : Op} (hp : (s.phase t).Checks op)
      (hr : M.ready op s.shared = true) :
      Internal M s t (s.commit t op (M.body op s.shared).1 (M.body op s.shared).2
        (M.signals op (M.body op s.shared).1))
  /-- The predicate fails: the thread joins the waiter set. -/
  | block {s : State S Cond Op Ret τ} {t : τ} {op : Op}
      (hp : s.phase t = .entering op ∨ s.phase t = .woken op false)
      (hr : M.ready op s.shared = false) :
      Internal M s t (s.setPhase t (.waiting op))
  /-- The time of a timed wait is up. -/
  | expire {s : State S Cond Op Ret τ} {t : τ} {op : Op} {r : Ret}
      (hp : s.phase t = .waiting op) (ht : M.timeout op = some r) :
      Internal M s t (s.setPhase t (.woken op true))
  /-- The time is up and the predicate fails: the operation gives up. -/
  | giveUp {s : State S Cond Op Ret τ} {t : τ} {op : Op} {r : Ret}
      (hp : s.phase t = .woken op true) (hr : M.ready op s.shared = false)
      (ht : M.timeout op = some r) :
      Internal M s t (s.commit t op r s.shared [])
  /-- A spurious wake-up. -/
  | wake {s : State S Cond Op Ret τ} {t : τ} {op : Op} (hp : s.phase t = .waiting op) :
      Internal M s t (s.setPhase t (.woken op false))
  /-- A signal for one waiter reaches the waiter `u`. -/
  | notifyOne {s : State S Cond Op Ret τ} {t u : τ} {c : Cond} {r : Ret}
      {pending : List (Signal Cond)} {op : Op}
      (hp : s.phase t = .leaving r (.one c :: pending))
      (hu : s.phase u = .waiting op) (hc : M.cond op = some c) :
      Internal M s t ((s.setPhase t (.leaving r pending)).setPhase u (.woken op false))
  /-- A signal for one waiter finds no waiter. -/
  | notifyNone {s : State S Cond Op Ret τ} {t : τ} {c : Cond} {r : Ret}
      {pending : List (Signal Cond)}
      (hp : s.phase t = .leaving r (.one c :: pending))
      (hu : ∀ u, ¬ M.WaitsOn c (s.phase u)) :
      Internal M s t (s.setPhase t (.leaving r pending))
  /-- A signal for all waiters. -/
  | notifyAll {s : State S Cond Op Ret τ} {t : τ} {c : Cond} {r : Ret}
      {pending : List (Signal Cond)}
      (hp : s.phase t = .leaving r (.all c :: pending)) :
      Internal M s t
        { s with phase := fun u => M.wakeAll c ((s.setPhase t (.leaving r pending)).phase u) }

/-- The steps of threads that call the operations of the monitor in any order. -/
inductive Step [DecidableEq Cond] (M : Monitor S Cond Op Ret) :
    State S Cond Op Ret τ → τ → State S Cond Op Ret τ → Prop where
  | call {s : State S Cond Op Ret τ} {t : τ} (op : Op) (hp : s.phase t = .idle) :
      Step M s t (s.call t op)
  | internal {s s' : State S Cond Op Ret τ} {t : τ} (h : M.Internal s t s') : Step M s t s'
  | ret {s : State S Cond Op Ret τ} {t : τ} {r : Ret} (hp : s.phase t = .leaving r []) :
      Step M s t (s.ret t)

/-- The monitor at the shared state `σ`, before any operation. -/
def initial (Cond : Type v) (Op : Type w) (Ret : Type x) (τ : Type y) (σ : S) :
    State S Cond Op Ret τ where
  shared := σ
  phase := fun _ => .idle
  log := []

/-- The threads `τ` using the monitor from the shared state `σ`. -/
def system [DecidableEq Cond] (M : Monitor S Cond Op Ret) (τ : Type y) [DecidableEq τ] (σ : S) :
    TransitionSystem (State S Cond Op Ret τ) τ where
  Init s := s = initial Cond Op Ret τ σ
  Step := M.Step

/-! ### The effect of a step -/

/-- The operation `op` at `σ` may return `r` and leave `σ'`: its predicate holds and the body
does so, or its predicate fails and it gives up. -/
def Commits (M : Monitor S Cond Op Ret) (op : Op) (σ : S) (r : Ret) (σ' : S) : Prop :=
  (M.ready op σ = true ∧ M.body op σ = (r, σ'))
    ∨ (M.ready op σ = false ∧ M.timeout op = some r ∧ σ' = σ)

/-- A step that has no effect: the shared state, the log and all views stay. -/
structure Silent (s s' : State S Cond Op Ret τ) : Prop where
  shared : s'.shared = s.shared
  log : s'.log = s.log
  view : ∀ u, (s'.phase u).view = (s.phase u).view

/-- A step in which the operation `op` of the thread `t` takes effect, with the value `r`. -/
structure Effect (M : Monitor S Cond Op Ret) (s : State S Cond Op Ret τ) (t : τ) (op : Op)
    (r : Ret) (s' : State S Cond Op Ret τ) : Prop where
  commits : M.Commits op s.shared r s'.shared
  before : (s.phase t).view = .before op
  after : (s'.phase t).view = .after r
  others : ∀ u, u ≠ t → s'.phase u = s.phase u
  log : s'.log = s.log ++ [(t, op, r)]

/-- Replacing the phase of a thread by one with the same view has no effect. -/
theorem Silent.setPhase {s : State S Cond Op Ret τ} {t : τ} {p : Phase Cond Op Ret}
    (h : p.view = (s.phase t).view) :
  Silent s (s.setPhase t p)
  := by
  constructor
  · rfl
  · rfl
  · intro u
    by_cases hu : u = t
    · subst hu
      rw [State.setPhase_phase_self, h]
    · rw [State.setPhase_phase_of_ne _ _ hu]

omit [DecidableEq τ] in
/-- Two steps without effect have no effect. -/
theorem Silent.trans {s s' s'' : State S Cond Op Ret τ} (h : Silent s s') (h' : Silent s' s'') :
  Silent s s''
  := by
  constructor
  · rw [h'.shared, h.shared]
  · rw [h'.log, h.log]
  · intro u
    rw [h'.view, h.view]

variable [DecidableEq Cond]

/-- A step inside the monitor has no effect, or the operation of the acting thread takes
effect. -/
theorem Internal.cases {M : Monitor S Cond Op Ret} {s s' : State S Cond Op Ret τ} {t : τ}
    (h : M.Internal s t s') :
  Silent s s' ∨ ∃ op r, M.Effect s t op r s'
  := by
  cases h with
  | @act op hp hr =>
      right
      use op, (M.body op s.shared).1
      constructor
      · left
        exact ⟨hr, rfl⟩
      · obtain hp | ⟨b, hp⟩ := hp
        · rw [hp, Phase.view_entering]
        · rw [hp, Phase.view_woken]
      · rw [State.commit_phase_self, Phase.view_leaving]
      · intro u hu
        apply Function.update_of_ne hu
      · rfl
  | block hp hr =>
      left
      apply Silent.setPhase
      obtain hp | hp := hp
      · rw [hp, Phase.view_entering, Phase.view_waiting]
      · rw [hp, Phase.view_woken, Phase.view_waiting]
  | expire hp ht =>
      left
      apply Silent.setPhase
      rw [hp, Phase.view_woken, Phase.view_waiting]
  | @giveUp op r hp hr ht =>
      right
      use op, r
      constructor
      · right
        exact ⟨hr, ht, rfl⟩
      · rw [hp, Phase.view_woken]
      · rw [State.commit_phase_self, Phase.view_leaving]
      · intro u hu
        apply Function.update_of_ne hu
      · rfl
  | wake hp =>
      left
      apply Silent.setPhase
      rw [hp, Phase.view_woken, Phase.view_waiting]
  | @notifyOne u c r pending op hp hu hc =>
      left
      have hne : u ≠ t := by
        rintro rfl
        rw [hp] at hu
        cases hu
      have hsent : Silent s (s.setPhase t (.leaving r pending)) := by
        apply Silent.setPhase
        rw [hp, Phase.view_leaving, Phase.view_leaving]
      apply hsent.trans
      · apply Silent.setPhase
        rw [State.setPhase_phase_of_ne _ _ hne, hu, Phase.view_woken, Phase.view_waiting]
  | notifyNone hp hu =>
      left
      apply Silent.setPhase
      rw [hp, Phase.view_leaving, Phase.view_leaving]
  | @notifyAll c r pending hp =>
      left
      have h : Silent s (s.setPhase t (.leaving r pending)) := by
        apply Silent.setPhase
        rw [hp, Phase.view_leaving, Phase.view_leaving]
      constructor
      · rfl
      · rfl
      · intro u
        rw [← h.view u]
        apply view_wakeAll

/-- A step leaves the phases of the other threads that are in no waiter set. -/
theorem Internal.phase_of_ne {M : Monitor S Cond Op Ret} {s s' : State S Cond Op Ret τ} {t u : τ}
    (h : M.Internal s t s') (hu : u ≠ t) (hw : ¬ (s.phase u).Waits) :
  s'.phase u = s.phase u
  := by
  cases h with
  | @notifyOne v c r pending op hp hv hc =>
      have hne : u ≠ v := by
        rintro rfl
        apply hw ⟨op, hv⟩
      rw [State.setPhase_phase_of_ne _ _ hne, State.setPhase_phase_of_ne _ _ hu]
  | @notifyAll c r pending hp =>
      simp only [State.setPhase_phase_of_ne _ _ hu]
      cases hq : s.phase u with
      | waiting op => apply absurd ⟨op, hq⟩ hw
      | _ => rfl
  | _ => exact Function.update_of_ne hu ..

/-- A step leaves another thread in its waiter set, or wakes it. -/
theorem Internal.phase_of_waiting {M : Monitor S Cond Op Ret} {s s' : State S Cond Op Ret τ}
    {t u : τ} (h : M.Internal s t s') (hu : u ≠ t) {op : Op} (hp : s.phase u = .waiting op) :
  s'.phase u = s.phase u ∨ s'.phase u = .woken op false
  := by
  cases h with
  | @notifyOne v c r pending op' hp' hv hc =>
      by_cases huv : u = v
      · subst huv
        right
        cases hp.symm.trans hv
        rw [State.setPhase_phase_self]
      · left
        rw [State.setPhase_phase_of_ne _ _ huv, State.setPhase_phase_of_ne _ _ hu]
  | @notifyAll c r pending hp' =>
      simp only [State.setPhase_phase_of_ne _ _ hu, hp, wakeAll]
      split
      · exact Or.inr rfl
      · exact Or.inl rfl
  | _ => exact Or.inl (Function.update_of_ne hu ..)

/-- A thread that takes a step inside the monitor is in an operation. -/
theorem Internal.ne_idle {M : Monitor S Cond Op Ret} {s s' : State S Cond Op Ret τ} {t : τ}
    (h : M.Internal s t s') :
  s.phase t ≠ .idle
  := by
  cases h with
  | act hp hr => obtain hp | ⟨b, hp⟩ := hp <;> simp [hp]
  | block hp hr => obtain hp | hp := hp <;> simp [hp]
  | _ hp => simp [hp]

/-- The next step of a thread that has one signal to send wakes the only thread that waits for the
signal. -/
theorem Internal.wakes {M : Monitor S Cond Op Ret} {s s' : State S Cond Op Ret τ} {t u : τ} {r : Ret}
    {c : Cond} {op : Op} (h : M.Internal s t s') (ht : s.phase t = .leaving r [.one c])
    (hu : s.phase u = .waiting op) (hc : M.cond op = some c)
    (honly : ∀ v op', s.phase v = .waiting op' → M.cond op' = some c → v = u) :
  s'.phase u = .woken op false
  := by
  cases h with
  | act hp hr => obtain hp | ⟨b, hp⟩ := hp <;> cases ht.symm.trans hp
  | block hp hr => obtain hp | hp := hp <;> cases ht.symm.trans hp
  | expire hp => cases ht.symm.trans hp
  | giveUp hp => cases ht.symm.trans hp
  | wake hp => cases ht.symm.trans hp
  | notifyAll hp => cases ht.symm.trans hp
  | notifyOne hp hv hc' =>
      cases ht.symm.trans hp
      obtain rfl := honly _ _ hv hc'
      cases hu.symm.trans hv
      rw [State.setPhase_phase_self]
  | notifyNone hp hnone =>
      cases ht.symm.trans hp
      apply absurd _ (hnone u)
      rw [hu]
      apply hc

/-- In every reachable state a thread whose time is up is in a timed operation. -/
theorem timed_of_reachable {M : Monitor S Cond Op Ret} {σ₀ : S} {s : State S Cond Op Ret τ}
    (h : (M.system τ σ₀).Reachable s) :
  ∀ t op, s.phase t = .woken op true → (M.timeout op).isSome = true
  := by
  apply h.invariant
  · rintro s rfl t op hp
    cases hp
  · intro s u s' _ ih hs t op hp
    by_cases hut : t = u
    · subst hut
      cases hs with
      | call op hp' => simp [State.call] at hp
      | ret hp' => simp [State.ret] at hp
      | internal hs =>
          cases hs with
          | expire hp' ht =>
              simp only [State.setPhase_phase_self, Phase.woken.injEq, and_true] at hp
              rw [← hp, ht]
              rfl
          | @notifyOne v c r pending op' hp' hv hc =>
              by_cases hvt : t = v
              · subst hvt
                simp at hp
              · rw [State.setPhase_phase_of_ne _ _ hvt] at hp
                simp at hp
          | notifyAll hp' => simp [wakeAll] at hp
          | _ => simp at hp
    · cases hs with
      | call op' hp' =>
          rw [State.call, State.setPhase_phase_of_ne _ _ hut] at hp
          apply ih t op hp
      | ret hp' =>
          rw [State.ret, State.setPhase_phase_of_ne _ _ hut] at hp
          apply ih t op hp
      | internal hs =>
          by_cases hw : (s.phase t).Waits
          · obtain ⟨op', hop⟩ := hw
            obtain hsame | hwoken := hs.phase_of_waiting hut hop
            · rw [hsame] at hp
              cases hop.symm.trans hp
            · rw [hwoken] at hp
              cases hp
          · rw [hs.phase_of_ne hut hw] at hp
            apply ih t op hp

/-- In a reachable state, a thread in an operation that is in no waiter set takes a step, or has
nothing left to do but to return. -/
theorem exists_internal {M : Monitor S Cond Op Ret} {σ₀ : S} {s : State S Cond Op Ret τ}
    (h : (M.system τ σ₀).Reachable s) {t : τ} (hw : ¬ (s.phase t).Waits)
    (hidle : s.phase t ≠ .idle) :
  (∃ s', M.Internal s t s') ∨ ∃ r, s.phase t = .leaving r []
  := by
  cases hp : s.phase t with
  | idle => apply absurd hp hidle
  | entering op =>
      left
      cases hr : M.ready op s.shared with
      | true => exact ⟨_, .act (Or.inl hp) hr⟩
      | false => exact ⟨_, .block (Or.inl hp) hr⟩
  | waiting op => apply absurd ⟨op, hp⟩ hw
  | woken op b =>
      left
      cases hr : M.ready op s.shared with
      | true => exact ⟨_, .act (Or.inr ⟨b, hp⟩) hr⟩
      | false =>
          cases b with
          | false => exact ⟨_, .block (Or.inr hp) hr⟩
          | true =>
              obtain ⟨r, ht⟩ := Option.isSome_iff_exists.mp (timed_of_reachable h t op hp)
              exact ⟨_, .giveUp hp hr ht⟩
  | leaving r pending =>
      cases pending with
      | nil => exact Or.inr ⟨r, rfl⟩
      | cons x pending =>
          left
          cases x with
          | all c => exact ⟨_, .notifyAll hp⟩
          | one c =>
              by_cases hu : ∃ u, M.WaitsOn c (s.phase u)
              · obtain ⟨u, hu⟩ := hu
                cases hq : s.phase u with
                | waiting op =>
                    rw [hq] at hu
                    exact ⟨_, .notifyOne hp hq hu⟩
                | _ =>
                    rw [hq] at hu
                    cases hu
              · push Not at hu
                exact ⟨_, .notifyNone hp hu⟩

/-! ### Calls in progress -/

/-- The operation may return the value. -/
def Returns (M : Monitor S Cond Op Ret) (op : Op) (r : Ret) : Prop :=
  ∃ σ σ', M.Commits op σ r σ'

/-- The phase of a thread that is in a call of the operation, or in no call. -/
def InCall (M : Monitor S Cond Op Ret) : Option Op → Phase Cond Op Ret → Prop
  | none, p => p = .idle
  | some op, p => p.view = .before op ∨ ∃ r, p.view = .after r ∧ M.Returns op r

omit [DecidableEq Cond] in
/-- A thread past its section is in the call of an operation that may return its value. -/
theorem InCall.of_after {M : Monitor S Cond Op Ret} {o : Option Op} {p : Phase Cond Op Ret}
    {r : Ret} (h : M.InCall o p) (hv : p.view = .after r) :
  ∃ op, o = some op ∧ M.Returns op r
  := by
  cases o with
  | none =>
      have hp : p = .idle := h
      rw [hp] at hv
      cases hv
  | some op =>
      use op, rfl
      obtain hb | ⟨r', hr', hret⟩ := h
      · rw [hv] at hb
        cases hb
      · rw [hv] at hr'
        cases hr'
        apply hret

omit [DecidableEq Cond] in
/-- A thread before its section is in the call of the operation. -/
theorem InCall.of_before {M : Monitor S Cond Op Ret} {o : Option Op} {p : Phase Cond Op Ret}
    {op : Op} (h : M.InCall o p) (hv : p.view = .before op) :
  o = some op
  := by
  cases o with
  | none =>
      have hp : p = .idle := h
      rw [hp] at hv
      cases hv
  | some op' =>
      obtain hb | ⟨r', hr', -⟩ := h
      · rw [hv] at hb
        cases hb
        rfl
      · rw [hv] at hr'
        cases hr'

/-- The steps inside the monitor begin and end no call. -/
theorem InCall.internal {M : Monitor S Cond Op Ret} {s s' : State S Cond Op Ret τ} {t u : τ}
    {o : Option Op} (h : M.InCall o (s.phase u)) (hs : M.Internal s t s') :
  M.InCall o (s'.phase u)
  := by
  obtain hs | ⟨op, r, hs⟩ := hs.cases
  · cases o with
    | none =>
        have hu : s.phase u = .idle := h
        apply Phase.eq_idle_of_view
        rw [hs.view, hu, Phase.view_idle]
    | some op' =>
        rw [InCall, hs.view]
        apply h
  · by_cases hu : u = t
    · subst hu
      obtain rfl := h.of_before hs.before
      right
      exact ⟨r, hs.after, _, _, hs.commits⟩
    · rw [hs.others u hu]
      apply h

/-! ### Sequential runs -/

/-- `M.Sequential σ₀ log σ`: the operations of the log, one after the other, lead from `σ₀`
to `σ`. -/
inductive Sequential (M : Monitor S Cond Op Ret) (σ₀ : S) : List (τ × Op × Ret) → S → Prop where
  | nil : Sequential M σ₀ [] σ₀
  | snoc {log : List (τ × Op × Ret)} {σ σ' : S} {t : τ} {op : Op} {r : Ret}
      (h : Sequential M σ₀ log σ) (hc : M.Commits op σ r σ') :
      Sequential M σ₀ (log ++ [(t, op, r)]) σ'

/-- The log of a reachable state is a sequential run of the operations that ends in the
shared state. -/
theorem sequential_of_reachable {M : Monitor S Cond Op Ret} {σ₀ : S}
    {s : State S Cond Op Ret τ} (h : (M.system τ σ₀).Reachable s) :
  M.Sequential σ₀ s.log s.shared
  := by
  induction h with
  | init h =>
      cases h
      apply Sequential.nil
  | step _ hs ih =>
      cases hs with
      | call op hp => apply ih
      | ret hp => apply ih
      | internal h =>
          obtain h | ⟨op, r, h⟩ := h.cases
          · rw [h.log, h.shared]
            apply ih
          · rw [h.log]
            apply ih.snoc h.commits

omit [DecidableEq τ] [DecidableEq Cond] in
/-- A sequential run can be cut between two operations. -/
theorem Sequential.split {M : Monitor S Cond Op Ret} {σ₀ σ : S} {before later : List (τ × Op × Ret)}
    (h : M.Sequential σ₀ (before ++ later) σ) :
  ∃ σ₁, M.Sequential σ₀ before σ₁ ∧ M.Sequential σ₁ later σ
  := by
  induction later using List.reverseRecOn generalizing σ with
  | nil =>
      rw [List.append_nil] at h
      exact ⟨σ, h, Sequential.nil⟩
  | append_singleton later e ih =>
      rw [← List.append_assoc] at h
      generalize hlog : before ++ later ++ [e] = log at h
      cases h with
      | nil => simp at hlog
      | snoc h hc =>
          obtain ⟨rfl, he⟩ := List.append_inj' hlog rfl
          cases he
          obtain ⟨σ₁, hbefore, hlater⟩ := ih h
          exact ⟨σ₁, hbefore, hlater.snoc hc⟩

omit [DecidableEq τ] [DecidableEq Cond] in
/-- An entry of a sequential run is an operation that takes effect between the ones before it and
those after it. -/
theorem Sequential.entry {M : Monitor S Cond Op Ret} {σ₀ σ : S}
    {before later : List (τ × Op × Ret)} {t : τ} {op : Op} {r : Ret}
    (h : M.Sequential σ₀ (before ++ (t, op, r) :: later) σ) :
  ∃ σ₁ σ₂, M.Sequential σ₀ before σ₁ ∧ M.Commits op σ₁ r σ₂ ∧ M.Sequential σ₂ later σ
  := by
  rw [List.append_cons] at h
  obtain ⟨σ₂, hbefore, hlater⟩ := h.split
  generalize hlog : before ++ [(t, op, r)] = log at hbefore
  cases hbefore with
  | nil => simp at hlog
  | snoc hbefore hc =>
      obtain ⟨rfl, he⟩ := List.append_inj' hlog rfl
      cases he
      exact ⟨_, σ₂, hbefore, hc, hlater⟩

omit [DecidableEq τ] [DecidableEq Cond] in
/-- What every operation keeps holds at the end of a sequential run, and what every operation
that finds it does is done by all of them. -/
theorem Sequential.preserves {M : Monitor S Cond Op Ret} {P : S → Prop} {Q : Op → Ret → Prop}
    (hstep : ∀ op σ r σ', P σ → M.Commits op σ r σ' → P σ' ∧ Q op r) {σ₀ σ : S}
    {log : List (τ × Op × Ret)} (h : M.Sequential σ₀ log σ) (hσ₀ : P σ₀) :
  P σ ∧ ∀ e ∈ log, Q e.2.1 e.2.2
  := by
  induction h with
  | nil => exact ⟨hσ₀, by simp⟩
  | snoc _ hc ih =>
      obtain ⟨hP, hQ⟩ := hstep _ _ _ _ ih.1 hc
      use hP
      intro e he
      obtain he | he := List.mem_append.mp he
      · apply ih.2 e he
      · cases List.mem_singleton.mp he
        apply hQ

/-- A step that adds an entry to the log is the effect of its operation. -/
theorem Step.commits {M : Monitor S Cond Op Ret} {s s' : State S Cond Op Ret τ} {t u : τ} {op : Op}
    {r : Ret} (h : M.Step s t s') (hlog : s'.log = s.log ++ [(u, op, r)]) :
  M.Commits op s.shared r s'.shared
  := by
  cases h with
  | call op' hp => simp [State.call] at hlog
  | ret hp => simp [State.ret] at hlog
  | internal h =>
      obtain h | ⟨op', r', h⟩ := h.cases
      · rw [h.log] at hlog
        simp at hlog
      · rw [h.log] at hlog
        have he : (t, op', r') = (u, op, r) := by simpa using hlog
        cases he
        apply h.commits

/-- A step keeps the shared state, or is the effect of an operation. -/
theorem Step.shared_or_commits {M : Monitor S Cond Op Ret} {s s' : State S Cond Op Ret τ} {t : τ}
    (h : M.Step s t s') :
  s'.shared = s.shared ∨ ∃ op r, M.Commits op s.shared r s'.shared
  := by
  cases h with
  | call op hp => exact Or.inl rfl
  | ret hp => exact Or.inl rfl
  | internal h =>
      obtain h | ⟨op, r, h⟩ := h.cases
      · exact Or.inl h.shared
      · exact Or.inr ⟨op, r, h.commits⟩

omit [DecidableEq τ] [DecidableEq Cond] in
/-- The signals that a thread has still to send are the last ones of those its operation sends. -/
def Sends (M : Monitor S Cond Op Ret) : Phase Cond Op Ret → Prop
  | .leaving r pending => ∃ op, pending <:+ M.signals op r
  | _ => True

omit [DecidableEq Cond] in
/-- A thread that has sent a signal has still to send the ones after it. -/
theorem Sends.tail {M : Monitor S Cond Op Ret} {r : Ret} {x : Signal Cond}
    {pending : List (Signal Cond)} (h : M.Sends (.leaving r (x :: pending))) :
  M.Sends (.leaving r pending)
  := by
  obtain ⟨op, hop⟩ := h
  use op
  apply (List.suffix_cons _ _).trans hop

omit [DecidableEq Cond] in
/-- A thread takes another phase. -/
theorem Sends.update {M : Monitor S Cond Op Ret} {φ : τ → Phase Cond Op Ret}
    (h : ∀ t, M.Sends (φ t)) (u : τ) {p : Phase Cond Op Ret} (hp : M.Sends p) :
  ∀ t, M.Sends (Function.update φ u p t)
  := by
  intro t
  by_cases ht : t = u
  · subst ht
    rwa [Function.update_self]
  · rw [Function.update_of_ne ht]
    apply h

/-- In every reachable state, the signals that a thread has still to send are the last ones of
those its operation sends. -/
theorem sends_of_reachable {M : Monitor S Cond Op Ret} {σ₀ : S} {s : State S Cond Op Ret τ}
    (h : (M.system τ σ₀).Reachable s) :
  ∀ t, M.Sends (s.phase t)
  := by
  apply h.invariant
  · rintro s rfl t
    trivial
  · intro s u s' _ ih hs
    cases hs with
    | call op hp => exact Sends.update (p := .entering op) ih u trivial
    | ret hp => exact Sends.update (p := .idle) ih u trivial
    | internal hs =>
        have htail : ∀ {r x pending}, s.phase u = .leaving r (x :: pending) →
            M.Sends (.leaving r pending) := by
          intro r x pending hp
          apply Sends.tail (x := x)
          rw [← hp]
          apply ih
        cases hs with
        | @act op hp hr =>
            apply Sends.update ih u
            exact ⟨op, List.suffix_rfl⟩
        | @block op hp hr => exact Sends.update (p := .waiting op) ih u trivial
        | @expire op r hp ht => exact Sends.update (p := .woken op true) ih u trivial
        | @giveUp op r hp hr ht =>
            apply Sends.update ih u
            exact ⟨op, List.nil_suffix⟩
        | @wake op hp => exact Sends.update (p := .woken op false) ih u trivial
        | @notifyOne v c r pending op hp hu hc =>
            exact Sends.update (p := .woken op false) (Sends.update ih u (htail hp)) v trivial
        | notifyNone hp hu => apply Sends.update ih u (htail hp)
        | @notifyAll c r pending hp =>
            intro t
            have ht : M.Sends ((s.setPhase u (.leaving r pending)).phase t) :=
              Sends.update ih u (htail hp) t
            cases hq : (s.setPhase u (.leaving r pending)).phase t with
            | waiting op =>
                simp only [hq, wakeAll]
                split <;> trivial
            | leaving r' pending' =>
                rw [hq] at ht
                simpa only [hq, wakeAll] using ht
            | _ => simp only [hq, wakeAll, Sends]

/-- A thread past its section returns what the last entry of the log about it says. -/
theorem last_entry_of_reachable {M : Monitor S Cond Op Ret} {σ₀ : S}
    {s : State S Cond Op Ret τ} (h : (M.system τ σ₀).Reachable s) {t : τ} {r : Ret}
    (hv : (s.phase t).view = .after r) :
  ∃ op before later, s.log = before ++ (t, op, r) :: later ∧ ∀ e ∈ later, e.1 ≠ t
  := by
  induction h with
  | init h =>
      cases h
      cases hv
  | @step s s' u h hs ih =>
      cases hs with
      | call op hp =>
          by_cases hu : t = u
          · subst hu
            simp [State.call] at hv
          · rw [State.call, State.setPhase_phase_of_ne _ _ hu] at hv
            apply ih hv
      | ret hp =>
          by_cases hu : t = u
          · subst hu
            simp [State.ret] at hv
          · rw [State.ret, State.setPhase_phase_of_ne _ _ hu] at hv
            apply ih hv
      | internal h =>
          obtain h | ⟨op, r', h⟩ := h.cases
          · rw [h.view] at hv
            rw [h.log]
            apply ih hv
          · by_cases hu : t = u
            · subst hu
              rw [h.after] at hv
              cases hv
              use op, s.log, []
              rw [h.log]
              simp
            · rw [h.others t hu] at hv
              obtain ⟨op', before, later, hlog, hlater⟩ := ih hv
              use op', before, later ++ [(u, op, r')]
              rw [h.log, hlog]
              constructor
              · simp
              · intro e he
                obtain he | he := List.mem_append.mp he
                · apply hlater e he
                · cases List.mem_singleton.mp he
                  apply Ne.symm hu

end Monitor
