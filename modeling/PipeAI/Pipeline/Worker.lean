import PipeAI.Concurrency.TransitionSystem
import Mathlib.Data.Fintype.Basic
import Mathlib.Logic.Function.Basic

/-!
# Workers

A `Worker` owns a running flag and the handle of a thread that calls a loop while the flag
is set.  `Worker.system τ` lets the threads `τ` call `start` and `stop` on one worker in any
interleaving of their steps, and one of them destroy the worker after all calls have
returned.

`std::terminate` is reached when a thread is assigned to a handle that still holds one, when
a handle without a thread is joined, and when the destroyed handle still holds a thread.  It
can be reached: a `stop` may clear the flag that a `start` has set before the `start` has
assigned the thread.  It cannot be reached, and no thread is left behind, in the runs in
which the flag is not exchanged while a call on the other side has taken it and is still at
work (`Undisturbed`).
-/

/-- Where the thread of a worker is: before its test of the flag, in a call of the loop, or
past its end. -/
inductive ThreadPc where
  | test
  | loop
  | exited
  deriving DecidableEq

/-- The flag `running_` and the handle `thread_`, which holds a thread that has not been
joined, or none. -/
structure Worker where
  running : Bool
  thread : Option ThreadPc
  deriving DecidableEq

namespace Worker

/-- The default-constructed worker. -/
def idle : Worker := ⟨false, none⟩

/-- The atomic exchange of `running_`: its old value, and the worker after it. -/
def exchange (w : Worker) (b : Bool) : Bool × Worker :=
  (w.running, { w with running := b })

/-- An exchange with the value that the flag has leaves the worker. -/
theorem exchange_of_eq {w : Worker} {b : Bool} (h : (w.exchange b).1 = b) :
  (w.exchange b).2 = w
  := by
  rw [exchange] at h ⊢
  simp [← h]

/-- `thread_.joinable()`. -/
def joinable (w : Worker) : Bool :=
  w.thread.isSome

/-- The assignment of a new thread to `thread_`, unless it terminates the process. -/
def assign (w : Worker) : Option Worker :=
  if w.joinable then none else some { w with thread := some .test }

/-- `thread_.join()` where the thread has exited. -/
def join (w : Worker) : Worker :=
  { w with thread := none }

/-- The test of the flag by the thread. -/
def test (w : Worker) : Worker :=
  { w with thread := some (if w.running then .loop else .exited) }

/-- The return of the loop. -/
def loopReturns (w : Worker) : Worker :=
  { w with thread := some .test }

/-! ### Calls on a worker -/

/-- Where a thread is in its call: outside of any call; in `start` before the exchange, or
before the assignment; in `stop` before the exchange, before the test of the handle, or
joining; in the destructor, past its `stop`. -/
inductive CallPc where
  | idle
  | starting
  | assigning
  | stopping
  | testing
  | joining
  | destroying
  deriving DecidableEq

/-- The lifetime of a worker. -/
inductive Lifetime where
  | alive
  | destructing
  | destroyed
  | terminated
  deriving DecidableEq

/-- A worker with the threads that call it. -/
@[ext]
structure State (τ : Type) where
  worker : Worker
  pc : τ → CallPc
  lifetime : Lifetime

variable {τ : Type} [DecidableEq τ]

namespace State

/-- The state in which the thread `t` is at `p` and the worker is `w`. -/
def move (s : State τ) (t : τ) (p : CallPc) (w : Worker) : State τ :=
  { s with worker := w, pc := Function.update s.pc t p }

/-- Where a call of `stop` leads to: out of the call, or on in the destructor. -/
def afterStop (s : State τ) : CallPc :=
  if s.lifetime = .destructing then .destroying else .idle

/-- The process has terminated. -/
def terminate (s : State τ) : State τ :=
  { s with lifetime := .terminated }

end State

/-- The steps of the calling threads, labelled by them, and of the thread of the worker. -/
inductive CallStep : State τ → Option τ → State τ → Prop where
  | invokeStart {s : State τ} (t : τ) (hl : s.lifetime = .alive) (hp : s.pc t = .idle) :
      CallStep s (some t) (s.move t .starting s.worker)
  | startLoses {s : State τ} {t : τ} (hp : s.pc t = .starting)
      (hx : (s.worker.exchange true).1 = true) :
      CallStep s (some t) (s.move t .idle (s.worker.exchange true).2)
  | startWins {s : State τ} {t : τ} (hp : s.pc t = .starting)
      (hx : (s.worker.exchange true).1 = false) :
      CallStep s (some t) (s.move t .assigning (s.worker.exchange true).2)
  | assign {s : State τ} {t : τ} {w : Worker} (hp : s.pc t = .assigning)
      (hw : s.worker.assign = some w) : CallStep s (some t) (s.move t .idle w)
  | assignTerminates {s : State τ} {t : τ} (hp : s.pc t = .assigning)
      (hw : s.worker.assign = none) : CallStep s (some t) s.terminate
  | invokeStop {s : State τ} (t : τ) (hl : s.lifetime = .alive) (hp : s.pc t = .idle) :
      CallStep s (some t) (s.move t .stopping s.worker)
  | stopLoses {s : State τ} {t : τ} (hp : s.pc t = .stopping)
      (hx : (s.worker.exchange false).1 = false) :
      CallStep s (some t) (s.move t s.afterStop (s.worker.exchange false).2)
  | stopWins {s : State τ} {t : τ} (hp : s.pc t = .stopping)
      (hx : (s.worker.exchange false).1 = true) :
      CallStep s (some t) (s.move t .testing (s.worker.exchange false).2)
  | notJoinable {s : State τ} {t : τ} (hp : s.pc t = .testing)
      (hj : s.worker.joinable = false) :
      CallStep s (some t) (s.move t s.afterStop s.worker)
  | joinable {s : State τ} {t : τ} (hp : s.pc t = .testing) (hj : s.worker.joinable = true) :
      CallStep s (some t) (s.move t .joining s.worker)
  | join {s : State τ} {t : τ} (hp : s.pc t = .joining)
      (hx : s.worker.thread = some .exited) :
      CallStep s (some t) (s.move t s.afterStop s.worker.join)
  | joinTerminates {s : State τ} {t : τ} (hp : s.pc t = .joining)
      (hx : s.worker.thread = none) : CallStep s (some t) s.terminate
  | invokeDestructor {s : State τ} (t : τ) (hl : s.lifetime = .alive)
      (hp : ∀ u, s.pc u = .idle) :
      CallStep s (some t) { s.move t .stopping s.worker with lifetime := .destructing }
  | destroy {s : State τ} {t : τ} (hp : s.pc t = .destroying)
      (hj : s.worker.joinable = false) :
      CallStep s (some t) { s.move t .idle s.worker with lifetime := .destroyed }
  | destroyTerminates {s : State τ} {t : τ} (hp : s.pc t = .destroying)
      (hj : s.worker.joinable = true) : CallStep s (some t) s.terminate
  | threadTests {s : State τ} (ht : s.worker.thread = some .test) :
      CallStep s none { s with worker := s.worker.test }
  | loopReturns {s : State τ} (ht : s.worker.thread = some .loop) :
      CallStep s none { s with worker := s.worker.loopReturns }

/-- The threads `τ` calling `start` and `stop` on a worker, and one of them destroying it in
the end.  Nothing happens after the process has terminated. -/
def system (τ : Type) [DecidableEq τ] : TransitionSystem (State τ) (Option τ) where
  Init s := s = ⟨idle, fun _ => .idle, .alive⟩
  Step s l s' := s.lifetime ≠ .terminated ∧ CallStep s l s'

/-- `std::terminate` has not been reached, and no thread is left behind when the flag is not set
and no call is in progress. -/
def Safe (s : State τ) : Prop :=
  s.lifetime ≠ .terminated
    ∧ (s.worker.running = false → (∀ t, s.pc t = .idle) → s.worker.thread = none)

/-- The condition on a step that the flag is not exchanged while a call on the other side has
taken it and is still at work: a `start` exchanges the flag only when no `stop` that has
cleared it is about to test or join the thread, and a `stop` only when no `start` that has
set it is about to assign the thread. -/
def Undisturbed (s : State τ) (l : Option τ) (_ : State τ) : Prop :=
  ∀ t, l = some t →
    (s.pc t = .starting → ∀ u, s.pc u ≠ .testing ∧ s.pc u ≠ .joining)
      ∧ (s.pc t = .stopping → ∀ u, s.pc u ≠ .assigning)

instance [Fintype τ] (s : State τ) (l : Option τ) (s' : State τ) :
    Decidable (Undisturbed s l s') :=
  inferInstanceAs (Decidable (∀ t, l = some t →
    (s.pc t = .starting → ∀ u, s.pc u ≠ .testing ∧ s.pc u ≠ .joining)
      ∧ (s.pc t = .stopping → ∀ u, s.pc u ≠ .assigning)))

/-! ### The holder of the flag -/

/-- The call has taken the flag and is still at work. -/
def CallPc.Holds : CallPc → Prop
  | .assigning => True
  | .testing => True
  | .joining => True
  | _ => False

/-- The worker is as a call that has taken the flag leaves it until it is done: a `start` has
still to assign the thread, a `stop` has still to join it. -/
def Agrees (w : Worker) : CallPc → Prop
  | .assigning => w.running = true ∧ w.thread = none
  | .testing => w.running = false ∧ w.thread.isSome = true
  | .joining => w.running = false ∧ w.thread.isSome = true
  | _ => True

/-- At most one call has taken the flag and is still at work.  The flag and the handle agree
when there is none, and are as that call leaves them when there is one. -/
inductive Mode (s : State τ) : Prop where
  | free (hfree : ∀ u, ¬ (s.pc u).Holds) (hw : s.worker.running = s.worker.thread.isSome)
  | held (t : τ) (ht : (s.pc t).Holds) (hu : ∀ u, (s.pc u).Holds → u = t)
      (hw : s.worker.Agrees (s.pc t))

@[simp]
theorem State.move_pc_self (s : State τ) (t : τ) (p : CallPc) (w : Worker) :
  (s.move t p w).pc t = p
  := Function.update_self ..

theorem State.move_pc_of_ne (s : State τ) {t u : τ} (p : CallPc) (w : Worker) (h : u ≠ t) :
  (s.move t p w).pc u = s.pc u
  := Function.update_of_ne h ..

/-- A call that has not taken the flag moves to where it has not taken it either. -/
theorem Mode.outside {s : State τ} (h : Mode s) {t : τ} {p : CallPc} (ht : ¬ (s.pc t).Holds)
    (hp : ¬ p.Holds) :
  Mode (s.move t p s.worker)
  := by
  have hsame : ∀ u, ((s.move t p s.worker).pc u).Holds → (s.pc u).Holds := by
    intro u hu
    by_cases hut : u = t
    · subst hut
      rw [State.move_pc_self] at hu
      apply absurd hu hp
    · rw [State.move_pc_of_ne _ _ _ hut] at hu
      apply hu
  cases h with
  | free hfree hw =>
      refine Mode.free ?_ hw
      intro u hu
      apply hfree u (hsame u hu)
  | held v hv hu hw =>
      have hvt : v ≠ t := by
        rintro rfl
        apply ht hv
      have hpc := s.move_pc_of_ne p s.worker hvt
      apply Mode.held v
      · rw [hpc]
        apply hv
      · intro u hu'
        apply hu u (hsame u hu')
      · rw [hpc]
        apply hw

/-- A call takes the flag, or goes on with it, where no other call has it. -/
theorem Mode.take {s : State τ} {t : τ} {p : CallPc} {w : Worker}
    (hother : ∀ u, (s.pc u).Holds → u = t) (hp : p.Holds) (hw : w.Agrees p) :
  Mode (s.move t p w)
  := by
  apply Mode.held t
  · rw [State.move_pc_self]
    apply hp
  · intro u hu
    by_cases hut : u = t
    · apply hut
    · rw [State.move_pc_of_ne _ _ _ hut] at hu
      apply hother u hu
  · rw [State.move_pc_self]
    apply hw

/-- A call that has taken the flag is done with it. -/
theorem Mode.release {s : State τ} {t : τ} {p : CallPc} {w : Worker}
    (hother : ∀ u, (s.pc u).Holds → u = t) (hp : ¬ p.Holds)
    (hw : w.running = w.thread.isSome) :
  Mode (s.move t p w)
  := by
  refine Mode.free ?_ hw
  intro u hu
  by_cases hut : u = t
  · subst hut
    rw [State.move_pc_self] at hu
    apply hp hu
  · rw [State.move_pc_of_ne _ _ _ hut] at hu
    apply hut (hother u hu)

omit [DecidableEq τ] in
/-- The call that has taken the flag is the only one, and the worker is as it leaves it. -/
theorem Mode.holder {s : State τ} (h : Mode s) {t : τ} {p : CallPc} (hp : s.pc t = p)
    (ht : p.Holds) :
  (∀ u, (s.pc u).Holds → u = t) ∧ s.worker.Agrees p
  := by
  subst hp
  cases h with
  | free hfree hw => apply absurd ht (hfree t)
  | held v hv hu hw =>
      obtain rfl := hu t ht
      exact ⟨hu, hw⟩

omit [DecidableEq τ] in
/-- When the flag is not set and no `stop` is at work with it, no call is, and there is no
thread. -/
theorem Mode.not_running {s : State τ} (h : Mode s) (hr : s.worker.running = false)
    (hp : ∀ u, s.pc u ≠ .testing ∧ s.pc u ≠ .joining) :
  (∀ u, ¬ (s.pc u).Holds) ∧ s.worker.thread = none
  := by
  cases h with
  | free hfree hw =>
      use hfree
      rw [hr] at hw
      simpa using hw.symm
  | held v hv hu hw =>
      cases hpc : s.pc v with
      | assigning =>
          rw [hpc, Agrees, hr] at hw
          cases hw.1
      | testing => apply absurd hpc (hp v).1
      | joining => apply absurd hpc (hp v).2
      | _ =>
          rw [hpc] at hv
          cases hv

omit [DecidableEq τ] in
/-- When the flag is set and no `start` is at work with it, no call is, and there is a
thread. -/
theorem Mode.running {s : State τ} (h : Mode s) (hr : s.worker.running = true)
    (hp : ∀ u, s.pc u ≠ .assigning) :
  (∀ u, ¬ (s.pc u).Holds) ∧ s.worker.thread.isSome = true
  := by
  cases h with
  | free hfree hw =>
      use hfree
      rw [← hw, hr]
  | held v hv hu hw =>
      cases hpc : s.pc v with
      | assigning => apply absurd hpc (hp v)
      | testing =>
          rw [hpc, Agrees, hr] at hw
          cases hw.1
      | joining =>
          rw [hpc, Agrees, hr] at hw
          cases hw.1
      | _ =>
          rw [hpc] at hv
          cases hv

omit [DecidableEq τ] in
/-- A step of the thread of the worker changes neither the flag nor whether there is a
thread. -/
theorem Mode.thread {s : State τ} (h : Mode s) {w : Worker} (hr : w.running = s.worker.running)
    (hj : w.thread.isSome = s.worker.thread.isSome) :
  Mode { s with worker := w }
  := by
  cases h with
  | free hfree hw =>
      refine Mode.free hfree ?_
      change w.running = w.thread.isSome
      rw [hr, hj, hw]
  | held v hv hu hw =>
      refine Mode.held v hv hu ?_
      change w.Agrees (s.pc v)
      cases hpc : s.pc v with
      | assigning =>
          rw [hpc, Agrees] at hw
          rw [Agrees, hr]
          use hw.1
          simpa [hw.2] using hj
      | testing =>
          rw [hpc, Agrees] at hw
          rw [Agrees, hr, hj]
          apply hw
      | joining =>
          rw [hpc, Agrees] at hw
          rw [Agrees, hr, hj]
          apply hw
      | _ => trivial

omit [DecidableEq τ] in
/-- The lifetime does not bear on the holder of the flag. -/
theorem Mode.lifetime {s : State τ} (h : Mode s) {l : Lifetime} :
  Mode { s with lifetime := l }
  := by
  cases h with
  | free hfree hw => exact Mode.free hfree hw
  | held v hv hu hw => exact Mode.held v hv hu hw

/-! ### Runs without overlap -/

/-- The invariant of the runs in which no flag is taken while a call on the other side is at
work with it: the destructor runs alone, and its `stop` leaves the flag cleared. -/
structure Inv (s : State τ) : Prop where
  mode : Mode s
  notTerminated : s.lifetime ≠ .terminated
  alone : s.lifetime = .destructing → ∀ t u, s.pc t ≠ .idle → s.pc u ≠ .idle → t = u
  destroying : ∀ t, s.pc t = .destroying →
    s.lifetime = .destructing ∧ s.worker.running = false

/-- A thread inside a call moves on, possibly past the `stop` of the destructor. -/
theorem Inv.move {s : State τ} (h : Inv s) {t : τ} {p : CallPc} {w : Worker}
    (ht : s.pc t ≠ .idle) (hd : s.pc t ≠ .destroying) (hmode : Mode (s.move t p w))
    (hp : p = .destroying → s.lifetime = .destructing ∧ w.running = false) :
  Inv (s.move t p w)
  := by
  have hidle : ∀ u, u ≠ t → (s.move t p w).pc u ≠ .idle → s.pc u ≠ .idle := by
    intro u hut hu
    rw [State.move_pc_of_ne _ _ _ hut] at hu
    apply hu
  constructor
  · apply hmode
  · apply h.notTerminated
  · intro hl u v hu hv
    have hone : ∀ u, (s.move t p w).pc u ≠ .idle → u = t := by
      intro u hu
      by_cases hut : u = t
      · apply hut
      · apply h.alone hl u t (hidle u hut hu) ht
    rw [hone u hu, hone v hv]
  · intro u hu
    by_cases hut : u = t
    · subst hut
      rw [State.move_pc_self] at hu
      apply hp hu
    · rw [State.move_pc_of_ne _ _ _ hut] at hu
      obtain ⟨hl, -⟩ := h.destroying u hu
      apply absurd (h.alone hl u t (by simp [hu]) ht) hut

/-- A thread invokes an operation on a worker that is alive. -/
theorem Inv.invoke {s : State τ} (h : Inv s) {t : τ} {p : CallPc} (hl : s.lifetime = .alive)
    (ht : s.pc t = .idle) (hp : p = .starting ∨ p = .stopping) :
  Inv (s.move t p s.worker)
  := by
  constructor
  · apply h.mode.outside
    · simp [ht, CallPc.Holds]
    · obtain rfl | rfl := hp <;> apply id
  · apply h.notTerminated
  · intro hl'
    rw [State.move, hl] at hl'
    cases hl'
  · intro u hu
    by_cases hut : u = t
    · subst hut
      rw [State.move_pc_self] at hu
      obtain rfl | rfl := hp <;> cases hu
    · rw [State.move_pc_of_ne _ _ _ hut] at hu
      have hl' := (h.destroying u hu).1
      rw [hl] at hl'
      cases hl'

/-- A thread comes to the destructor, or to its end, when the others are outside of all calls. -/
theorem Inv.lifetime {s : State τ} (h : Inv s) {t : τ} {p : CallPc} {l : Lifetime}
    (ht : ¬ (s.pc t).Holds) (hp : ¬ p.Holds) (hd : p ≠ .destroying) (hl : l ≠ .terminated)
    (hidle : ∀ u, u ≠ t → s.pc u = .idle) :
  Inv { s.move t p s.worker with lifetime := l }
  := by
  have hone : ∀ u, (s.move t p s.worker).pc u ≠ .idle → u = t := by
    intro u hu
    by_contra hut
    rw [State.move_pc_of_ne _ _ _ hut] at hu
    apply hu (hidle u hut)
  constructor
  · apply Mode.lifetime
    apply h.mode.outside ht hp
  · apply hl
  · intro _ u v hu hv
    rw [hone u hu, hone v hv]
  · intro u hu
    change (s.move t p s.worker).pc u = .destroying at hu
    obtain rfl := hone u (by simp [hu])
    rw [State.move_pc_self] at hu
    apply absurd hu hd

omit [DecidableEq τ] in
/-- The call a `stop` returns to is past the `stop` of the destructor only there. -/
theorem State.afterStop_eq_destroying {s : State τ} (h : s.afterStop = .destroying) :
  s.lifetime = .destructing
  := by
  rw [afterStop] at h
  split at h
  · assumption
  · cases h

omit [DecidableEq τ] in
/-- A call is not at work with the flag once its `stop` has returned. -/
theorem State.not_holds_afterStop (s : State τ) :
  ¬ s.afterStop.Holds
  := by
  rw [afterStop]
  split <;> apply id

/-- The invariant is kept by every step in which no flag is taken while a call on the other
side is at work with it. -/
theorem Inv.step {s s' : State τ} {l : Option τ} (h : Inv s) (hs : CallStep s l s')
    (hu : Undisturbed s l s') :
  Inv s'
  := by
  cases hs with
  | invokeStart t hl hp =>
      apply h.invoke hl hp
      left
      rfl
  | invokeStop t hl hp =>
      apply h.invoke hl hp
      right
      rfl
  | @startLoses t hp hx =>
      rw [exchange_of_eq hx]
      apply h.move (by simp [hp]) (by simp [hp]) _ (by simp)
      apply h.mode.outside
      · simp [hp, CallPc.Holds]
      · apply id
  | @startWins t hp hx =>
      obtain ⟨hfree, hthread⟩ := h.mode.not_running hx ((hu t rfl).1 hp)
      apply h.move (by simp [hp]) (by simp [hp]) _ (by simp)
      apply Mode.take
      · intro u hu
        apply absurd hu (hfree u)
      · trivial
      · exact ⟨rfl, hthread⟩
  | @assign t w hp hw =>
      obtain ⟨hother, hagrees⟩ := h.mode.holder hp trivial
      rw [Agrees] at hagrees
      have hassign : s.worker.assign = some { s.worker with thread := some .test } := by
        simp [Worker.assign, Worker.joinable, hagrees.2]
      rw [hassign] at hw
      cases hw
      apply h.move (by simp [hp]) (by simp [hp]) _ (by simp)
      apply Mode.release hother
      · apply id
      · apply hagrees.1
  | @assignTerminates t hp hw =>
      obtain ⟨-, hagrees⟩ := h.mode.holder hp trivial
      rw [Agrees] at hagrees
      simp [Worker.assign, Worker.joinable, hagrees.2] at hw
  | @stopLoses t hp hx =>
      rw [exchange_of_eq hx]
      apply h.move (by simp [hp]) (by simp [hp])
      · apply h.mode.outside
        · simp [hp, CallPc.Holds]
        · apply s.not_holds_afterStop
      · intro hd
        exact ⟨State.afterStop_eq_destroying hd, hx⟩
  | @stopWins t hp hx =>
      obtain ⟨hfree, hthread⟩ := h.mode.running hx ((hu t rfl).2 hp)
      apply h.move (by simp [hp]) (by simp [hp]) _ (by simp)
      apply Mode.take
      · intro u hu
        apply absurd hu (hfree u)
      · trivial
      · exact ⟨rfl, hthread⟩
  | @notJoinable t hp hj =>
      obtain ⟨-, hagrees⟩ := h.mode.holder hp trivial
      rw [Agrees] at hagrees
      rw [Worker.joinable, hagrees.2] at hj
      cases hj
  | @joinable t hp hj =>
      obtain ⟨hother, hagrees⟩ := h.mode.holder hp trivial
      apply h.move (by simp [hp]) (by simp [hp]) _ (by simp)
      apply Mode.take hother
      · trivial
      · apply hagrees
  | @join t hp hx =>
      obtain ⟨hother, hagrees⟩ := h.mode.holder hp trivial
      rw [Agrees] at hagrees
      apply h.move (by simp [hp]) (by simp [hp])
      · apply Mode.release hother
        · apply s.not_holds_afterStop
        · apply hagrees.1
      · intro hd
        exact ⟨State.afterStop_eq_destroying hd, hagrees.1⟩
  | @joinTerminates t hp hx =>
      obtain ⟨-, hagrees⟩ := h.mode.holder hp trivial
      rw [Agrees, hx] at hagrees
      cases hagrees.2
  | invokeDestructor t hl hp =>
      apply h.lifetime
      · simp [hp, CallPc.Holds]
      · apply id
      · simp
      · simp
      · intro u _
        apply hp u
  | @destroy t hp hj =>
      apply h.lifetime
      · simp [hp, CallPc.Holds]
      · apply id
      · simp
      · simp
      · intro u hut
        by_contra hu
        apply hut (h.alone (h.destroying t hp).1 u t hu (by simp [hp]))
  | @destroyTerminates t hp hj =>
      obtain ⟨hl, hr⟩ := h.destroying t hp
      have honly : ∀ u, s.pc u ≠ .idle → s.pc u = .destroying := by
        intro u hu
        obtain rfl := h.alone hl u t hu (by simp [hp])
        apply hp
      obtain ⟨-, hthread⟩ := h.mode.not_running hr (by
        intro u
        constructor
        · intro hu
          cases hu.symm.trans (honly u (by simp [hu]))
        · intro hu
          cases hu.symm.trans (honly u (by simp [hu])))
      rw [Worker.joinable, hthread] at hj
      cases hj
  | threadTests ht => exact ⟨h.mode.thread rfl (by simp [test, ht]), h.2, h.3, h.4⟩
  | loopReturns ht => exact ⟨h.mode.thread rfl (by simp [loopReturns, ht]), h.2, h.3, h.4⟩

/-- The invariant holds in the runs in which no flag is taken while a call on the other side is
at work with it. -/
theorem inv_of_undisturbed {s : State τ} (h : ((system τ).restrict Undisturbed).Reachable s) :
  Inv s
  := by
  apply h.invariant
  · rintro s rfl
    constructor
    · apply Mode.free
      · intro u
        apply id
      · rfl
    · simp
    · intro _ t u ht
      apply absurd rfl ht
    · intro t ht
      cases ht
  · intro s l s' _ ih hs
    apply ih.step hs.1.2 hs.2

/-- In the runs in which no flag is taken while a call on the other side is at work with it, the
thread has ended only when the flag is cleared. -/
theorem not_running_of_exited {s : State τ} (h : ((system τ).restrict Undisturbed).Reachable s) :
  s.worker.thread = some .exited → s.worker.running = false
  := by
  apply h.invariant
  · rintro s rfl hexited
    cases hexited
  · rintro s l s' hs ih ⟨⟨-, hstep⟩, hundisturbed⟩ hexited
    cases hstep with
    | @startLoses t hp hx =>
        have hsame := exchange_of_eq hx
        rw [State.move, hsame] at hexited ⊢
        apply ih hexited
    | @startWins t hp hx =>
        have hnone := ((inv_of_undisturbed hs).mode.not_running hx ((hundisturbed t rfl).1 hp)).2
        cases hnone.symm.trans hexited
    | stopLoses hp hx => rfl
    | stopWins hp hx => rfl
    | assign hp hw =>
        rw [Worker.assign] at hw
        split at hw
        · cases hw
        · cases hw
          cases hexited
    | join hp hx => cases hexited
    | threadTests ht =>
        cases hr : s.worker.running with
        | false => apply hr
        | true =>
            rw [test, hr] at hexited
            cases hexited
    | loopReturns ht => cases hexited
    | _ => apply ih hexited

/-- In the runs in which no flag is taken while a call on the other side is at work with it,
`std::terminate` is never reached, and no thread is left behind. -/
theorem safe_of_undisturbed {s : State τ} (h : ((system τ).restrict Undisturbed).Reachable s) :
  Safe s
  := by
  have hinv := inv_of_undisturbed h
  use hinv.notTerminated
  intro hr hidle
  apply (hinv.mode.not_running hr _).2
  intro u
  simp [hidle]

/-- A thread starts the worker and then stops it while the thread of the worker is in its
loop. -/
theorem safe_of_undisturbed_joining :
  Safe (⟨⟨false, some .loop⟩, fun _ => .joining, .alive⟩ : State Unit)
  := by
  have h₀ : ((system Unit).restrict Undisturbed).Reachable ⟨Worker.idle, fun _ => .idle, .alive⟩ :=
    TransitionSystem.Reachable.init rfl
  have h₁ := h₀.step ⟨⟨nofun, CallStep.invokeStart () rfl rfl⟩, by decide⟩
  have h₂ := h₁.step ⟨⟨nofun, CallStep.startWins (t := ()) rfl rfl⟩, by decide⟩
  have h₃ := h₂.step ⟨⟨nofun, CallStep.assign (t := ()) rfl rfl⟩, by decide⟩
  have h₄ := h₃.step ⟨⟨nofun, CallStep.threadTests rfl⟩, by decide⟩
  have h₅ := h₄.step ⟨⟨nofun, CallStep.invokeStop () rfl rfl⟩, by decide⟩
  have h₆ := h₅.step ⟨⟨nofun, CallStep.stopWins (t := ()) rfl rfl⟩, by decide⟩
  have h₇ := h₆.step ⟨⟨nofun, CallStep.joinable (t := ()) rfl rfl⟩, by decide⟩
  apply safe_of_undisturbed
  convert h₇ using 1
  ext u
  · rfl
  · rfl
  · rfl

/-! ### Overlapping calls -/

/-- The state a `start` and a `stop` leave behind when the `stop` takes the flag before the
`start` has assigned the thread: the flag is cleared, no call is in progress, and there is a
thread. -/
def leftBehind : State Bool where
  worker := ⟨false, some .test⟩
  pc := fun _ => .idle
  lifetime := .alive

theorem leftBehind_reachable :
  (system Bool).Reachable leftBehind
  := by
  have h₀ : (system Bool).Reachable ⟨Worker.idle, fun _ => .idle, .alive⟩ :=
    TransitionSystem.Reachable.init rfl
  have h₁ := h₀.step ⟨nofun, CallStep.invokeStart false rfl rfl⟩
  have h₂ := h₁.step ⟨nofun, CallStep.startWins (t := false) rfl rfl⟩
  have h₃ := h₂.step ⟨nofun, CallStep.invokeStop true rfl rfl⟩
  have h₄ := h₃.step ⟨nofun, CallStep.stopWins (t := true) rfl rfl⟩
  have h₅ := h₄.step ⟨nofun, CallStep.notJoinable (t := true) rfl rfl⟩
  have h₆ := h₅.step ⟨nofun, CallStep.assign (t := false) rfl rfl⟩
  convert h₆ using 1
  ext b
  · rfl
  · cases b <;> rfl
  · rfl

/-- The contract fails when a `stop` overlaps a `start`: a reachable state has the flag cleared,
no call in progress and a thread left, and destroying the worker then terminates the
process. -/
theorem not_safe_of_overlap :
  (¬ ∀ s : State Bool, (system Bool).Reachable s → Safe s)
    ∧ ∃ s, (system Bool).Reachable s ∧ s.lifetime = .terminated
  := by
  constructor
  · intro h
    have hnone := (h _ leftBehind_reachable).2 rfl (fun _ => rfl)
    cases hnone
  · have h₁ := leftBehind_reachable.step
      ⟨nofun, CallStep.invokeDestructor true rfl (fun _ => rfl)⟩
    have h₂ := h₁.step ⟨nofun, CallStep.stopLoses (t := true) rfl rfl⟩
    have h₃ := h₂.step ⟨nofun, CallStep.destroyTerminates (t := true) rfl rfl⟩
    exact ⟨_, h₃, rfl⟩

end Worker
