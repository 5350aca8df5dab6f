import PipeAI.Concurrency.TransitionSystem
import Mathlib.Logic.Function.Basic

/-!
# The watchdog

`Watchdog::heartbeat` reads the clock and then stores the time; `Watchdog::healthy` reads the clock
and loads the time stored last, in an order that is not determined, and compares their difference
with a timeout.  Any threads call them, and the steps of their calls interleave in any order.  The
clock does not go back, and shows any time that is not negative at the start, when 0 is stored.

Two threads may store their times in the wrong order, and the time 0 that is stored at the start
counts as a heartbeat.  The stored time never goes back, and the watchdog is healthy exactly when
there has been a recent heartbeat, as long as the times are stored in the order of the clock and the
watchdog is not asked within the timeout from the origin of the clock before the first heartbeat,
and no longer (`Watchdog.run_correct_iff`).
-/

namespace Watchdog

/-! ### The code -/

/-- Where a thread is in its call: outside of any call; in `heartbeat`, which has read the clock; in
`healthy`, which has read the clock; or in `healthy`, which has loaded the last time. -/
inductive CallPc where
  | idle
  | storing (now : ℤ)
  | loading (timeout now : ℤ)
  | reading (timeout last : ℤ)
  deriving DecidableEq

/-- A watchdog with the clock and the threads that call it.  The times that completed calls of
`heartbeat` have read are recorded, and for a thread in `healthy` whether no `heartbeat` has been
in progress since its call began. -/
structure State (τ : Type) where
  now_ms : ℤ
  last_ms : ℤ
  pc : τ → CallPc
  completed : List ℤ
  quiet : τ → Prop

/-- What happens: time passes; a `heartbeat` reads the clock, or stores the time; a `healthy` makes
the first of its steps, or returns a value, having read the clock at a time. -/
inductive Event (τ : Type) where
  | tick (d : ℕ)
  | heartbeatReads (t : τ)
  | heartbeatStores (t : τ) (now : ℤ)
  | healthyBegins (t : τ)
  | healthyReturns (t : τ) (timeout now : ℤ) (result : Bool)

/-- The value of `Watchdog::healthy`, from the clock and the last time. -/
def healthy (now last timeout : ℤ) : Bool :=
  now - last ≤ timeout

variable {τ : Type} [DecidableEq τ]

namespace State

/-- A clock that shows `origin`, and a watchdog that has not been called. -/
def start (origin : ℕ) : State τ where
  now_ms := origin
  last_ms := 0
  pc := fun _ => .idle
  completed := []
  quiet := fun _ => False

/-- The state in which the thread `t` is at `p`. -/
def move (s : State τ) (t : τ) (p : CallPc) : State τ :=
  { s with pc := Function.update s.pc t p }

/-- A step of a `heartbeat`, which is in progress before it or after it. -/
def beat (s : State τ) (t : τ) (p : CallPc) : State τ :=
  { s.move t p with quiet := fun _ => False }

/-- The first step of a `healthy`. -/
def ask (s : State τ) (t : τ) (p : CallPc) : State τ :=
  { s.move t p with quiet := Function.update s.quiet t (∀ u now, s.pc u ≠ .storing now) }

end State

/-- The steps of the clock and of the threads. -/
inductive Step : State τ → Event τ → State τ → Prop where
  | tick (s : State τ) (d : ℕ) : Step s (.tick d) { s with now_ms := s.now_ms + d }
  | heartbeatReads {s : State τ} {t : τ} (hp : s.pc t = .idle) :
      Step s (.heartbeatReads t) (s.beat t (.storing s.now_ms))
  | heartbeatStores {s : State τ} {t : τ} {now : ℤ} (hp : s.pc t = .storing now) :
      Step s (.heartbeatStores t now)
        { s.beat t .idle with last_ms := now, completed := s.completed ++ [now] }
  | healthyReads {s : State τ} {t : τ} (timeout : ℤ) (hp : s.pc t = .idle) :
      Step s (.healthyBegins t) (s.ask t (.loading timeout s.now_ms))
  | thenLoads {s : State τ} {t : τ} {timeout now : ℤ} (hp : s.pc t = .loading timeout now) :
      Step s (.healthyReturns t timeout now (healthy now s.last_ms timeout)) (s.move t .idle)
  | healthyLoads {s : State τ} {t : τ} (timeout : ℤ) (hp : s.pc t = .idle) :
      Step s (.healthyBegins t) (s.ask t (.reading timeout s.last_ms))
  | thenReads {s : State τ} {t : τ} {timeout last : ℤ} (hp : s.pc t = .reading timeout last) :
      Step s (.healthyReturns t timeout s.now_ms (healthy s.now_ms last timeout)) (s.move t .idle)

/-- The threads `τ` calling a watchdog. -/
def system (τ : Type) [DecidableEq τ] : TransitionSystem (State τ) (Event τ) where
  Init s := ∃ origin, s = .start origin
  Step := Step

/-! ### What is right, and when -/

/-- The last time does not go back in the step; and if the step is the return of a `healthy` during
which no `heartbeat` has been in progress, then its value is whether a completed `heartbeat` has
read the clock at a recent time. -/
structure Correct (s : State τ) (e : Event τ) (s' : State τ) : Prop where
  forward : s.last_ms ≤ s'.last_ms
  answers : ∀ t timeout now result, e = .healthyReturns t timeout now result → s.quiet t →
    (result = true ↔ ∃ time ∈ s.completed, now - timeout ≤ time)

/-- The step does not store a time when a later one has been stored; and if it is the return of a
`healthy` during which no `heartbeat` has been in progress, then a `heartbeat` has been completed,
or the clock shows more than the timeout. -/
structure InOrder (s : State τ) (e : Event τ) (_ : State τ) : Prop where
  stores : ∀ t now, e = .heartbeatStores t now → ∀ time ∈ s.completed, time ≤ now
  started : ∀ t timeout now result, e = .healthyReturns t timeout now result → s.quiet t →
    s.completed = [] → timeout < now

/-! ### The last time -/

/-- The last time is that of no `heartbeat`, or the latest one of those completed. -/
inductive Latest (last : ℤ) (completed : List ℤ) : Prop where
  | origin (hnone : completed = []) (hlast : last = 0)
  | time (hmem : last ∈ completed) (hmax : ∀ time ∈ completed, time ≤ last)

/-- The invariant of the runs in which all times are stored in order: the clock and the times read
from it are not negative, and the last time is the latest one, also for the threads that have loaded
it while no `heartbeat` has been in progress. -/
structure Inv (s : State τ) : Prop where
  clock : 0 ≤ s.now_ms
  storing : ∀ t now, s.pc t = .storing now → 0 ≤ now
  reading : ∀ t timeout last, s.pc t = .reading timeout last → s.quiet t → last = s.last_ms
  latest : Latest s.last_ms s.completed

/-- The last time goes forward exactly when no later one has been stored. -/
theorem Latest.le_iff {last now : ℤ} {completed : List ℤ} (h : Latest last completed)
    (hnow : 0 ≤ now) :
  last ≤ now ↔ ∀ time ∈ completed, time ≤ now
  := by
  cases h with
  | origin hnone hlast => simp [hnone, hlast, hnow]
  | time hmem hmax =>
      constructor
      · intro hle time htime
        apply (hmax time htime).trans hle
      · intro hall
        apply hall last hmem

/-- The time stored next is the latest one if no later one has been stored. -/
theorem Latest.store {now : ℤ} {completed : List ℤ} (h : ∀ time ∈ completed, time ≤ now) :
  Latest now (completed ++ [now])
  := by
  apply Latest.time
  · simp
  · intro time htime
    rw [List.mem_append, List.mem_singleton] at htime
    obtain htime | rfl := htime
    · apply h time htime
    · apply le_rfl

/-- The value from the last time is right exactly when there has been a `heartbeat`, or the clock
shows more than the timeout. -/
theorem Latest.healthy_iff {last : ℤ} {completed : List ℤ} (h : Latest last completed)
    (now timeout : ℤ) :
  (healthy now last timeout = true ↔ ∃ time ∈ completed, now - timeout ≤ time)
    ↔ (completed = [] → timeout < now)
  := by
  rw [healthy, decide_eq_true_eq]
  cases h with
  | origin hnone hlast => simp [hnone, hlast]
  | time hmem hmax =>
      apply iff_of_true
      · constructor
        · intro hle
          use last, hmem
          omega
        · rintro ⟨time, htime, hle⟩
          have := hmax time htime
          omega
      · rintro rfl
        cases hmem

/-! ### A step -/

@[simp]
theorem State.move_pc_self (s : State τ) (t : τ) (p : CallPc) :
  (s.move t p).pc t = p
  := Function.update_self ..

theorem State.move_pc_of_ne (s : State τ) {t u : τ} (p : CallPc) (h : u ≠ t) :
  (s.move t p).pc u = s.pc u
  := Function.update_of_ne h ..

theorem State.ask_quiet_of_ne (s : State τ) {t u : τ} (p : CallPc) (h : u ≠ t) :
  (s.ask t p).quiet u = s.quiet u
  := Function.update_of_ne h ..

/-- A fact about the calls of all threads is kept when one thread moves to where it holds. -/
theorem State.forall_pc_move {s : State τ} {C : τ → CallPc → Prop} (h : ∀ u, C u (s.pc u)) {t : τ}
    {p : CallPc} (hp : C t p) (u : τ) :
  C u ((s.move t p).pc u)
  := by
  by_cases hut : u = t
  · subst hut
    rw [State.move_pc_self]
    apply hp
  · rw [State.move_pc_of_ne _ _ hut]
    apply h u

omit [DecidableEq τ] in
/-- A step that leaves the last time and returns nothing is right, and stores no time. -/
theorem correct_iff_of_last_ms {s s' : State τ} {e : Event τ} (hlast : s'.last_ms = s.last_ms)
    (hstores : ∀ t now, e ≠ .heartbeatStores t now)
    (hreturns : ∀ t timeout now result, e ≠ .healthyReturns t timeout now result) :
  Correct s e s' ↔ InOrder s e s'
  := by
  apply iff_of_true
  · constructor
    · apply hlast.ge
    · intro t timeout now result he
      apply absurd he (hreturns t timeout now result)
  · constructor
    · intro t now he
      apply absurd he (hstores t now)
    · intro t timeout now result he
      apply absurd he (hreturns t timeout now result)

omit [DecidableEq τ] in
/-- The return of a `healthy` that has the last time, if no `heartbeat` has been in progress, is
right exactly when there has been a `heartbeat` or the clock shows more than the timeout. -/
theorem correct_iff_of_returns {s s' : State τ} (h : Inv s) {t : τ} {timeout now last : ℤ}
    (hlast : s'.last_ms = s.last_ms) (hload : s.quiet t → last = s.last_ms) :
  Correct s (.healthyReturns t timeout now (healthy now last timeout)) s'
    ↔ InOrder s (.healthyReturns t timeout now (healthy now last timeout)) s'
  := by
  have hhealthy := h.latest.healthy_iff now timeout
  constructor
  · rintro ⟨-, hanswers⟩
    constructor
    · intro _ _ he
      cases he
    · intro _ _ _ _ he hquiet
      cases he
      apply hhealthy.mp
      rw [← hload hquiet]
      apply hanswers t timeout now _ rfl hquiet
  · rintro ⟨-, hstarted⟩
    constructor
    · apply hlast.ge
    · intro _ _ _ _ he hquiet
      cases he
      rw [hload hquiet]
      apply hhealthy.mpr (hstarted t timeout now _ rfl hquiet)

/-- A step is right exactly when it stores no earlier time than the last, and asks for none that has
not been stored. -/
theorem correct_iff {s s' : State τ} {e : Event τ} (h : Inv s) (hs : Step s e s') :
  Correct s e s' ↔ InOrder s e s'
  := by
  cases hs with
  | tick d => apply correct_iff_of_last_ms <;> simp
  | heartbeatReads hp => apply correct_iff_of_last_ms <;> simp [State.beat, State.move]
  | @heartbeatStores t now hp =>
      have hle := h.latest.le_iff (h.storing t now hp)
      constructor
      · rintro ⟨hforward, -⟩
        constructor
        · intro _ _ he
          cases he
          apply hle.mp hforward
        · intro _ _ _ _ he
          cases he
      · rintro ⟨hstores, -⟩
        constructor
        · apply hle.mpr (hstores t now rfl)
        · intro _ _ _ _ he
          cases he
  | healthyReads timeout hp => apply correct_iff_of_last_ms <;> simp [State.ask, State.move]
  | thenLoads hp =>
      apply correct_iff_of_returns h
      · rfl
      · exact fun _ => rfl
  | healthyLoads timeout hp => apply correct_iff_of_last_ms <;> simp [State.ask, State.move]
  | thenReads hp =>
      apply correct_iff_of_returns h
      · rfl
      · apply h.reading _ _ _ hp

/-- A thread keeps the invariant when it moves with a time that is not negative, or with the last
time, and no other thread has been quiet for longer. -/
theorem Inv.move {s : State τ} (h : Inv s) {t : τ} {p : CallPc}
    (hstoring : ∀ now, p = .storing now → 0 ≤ now)
    (hreading : ∀ timeout last, p = .reading timeout last → last = s.last_ms) {quiet : τ → Prop}
    (hquiet : ∀ u, u ≠ t → quiet u → s.quiet u) :
  Inv { s.move t p with quiet := quiet }
  := by
  constructor
  · apply h.clock
  · apply State.forall_pc_move (C := fun _ p => ∀ now, p = .storing now → 0 ≤ now) h.storing hstoring
  · intro u timeout last hu hq
    by_cases hut : u = t
    · subst hut
      simp only [State.move_pc_self] at hu
      apply hreading timeout last hu
    · simp only [State.move_pc_of_ne _ _ hut] at hu
      apply h.reading u timeout last hu (hquiet u hut hq)
  · apply h.latest

/-- The first step of a `healthy` keeps the invariant. -/
theorem Inv.ask {s : State τ} (h : Inv s) {t : τ} {p : CallPc} (hstoring : ∀ now, p ≠ .storing now)
    (hreading : ∀ timeout last, p = .reading timeout last → last = s.last_ms) :
  Inv (s.ask t p)
  := by
  apply h.move _ hreading
  · intro u hut hq
    rw [← State.ask_quiet_of_ne s p hut]
    apply hq
  · intro now hp
    apply absurd hp (hstoring now)

/-- The last step of a `healthy` keeps the invariant. -/
theorem Inv.leave {s : State τ} (h : Inv s) (t : τ) :
  Inv (s.move t .idle)
  := h.move (by simp) (by simp) (fun _ _ hq => hq)

/-- A step that stores no earlier time than the last keeps the invariant. -/
theorem Inv.step {s s' : State τ} {e : Event τ} (h : Inv s) (hs : Step s e s')
    (hord : InOrder s e s') :
  Inv s'
  := by
  cases hs with
  | tick d =>
      constructor
      · have := h.clock
        simp only
        omega
      · apply h.storing
      · apply h.reading
      · apply h.latest
  | heartbeatReads hp =>
      apply h.move
      · rintro _ ⟨⟩
        apply h.clock
      · simp
      · intro _ _ hq
        cases hq
  | @heartbeatStores t now hp =>
      have hleft := h.leave t
      constructor
      · apply hleft.clock
      · apply hleft.storing
      · intro _ _ _ _ hq
        cases hq
      · apply Latest.store (hord.stores t now rfl)
  | healthyReads timeout hp => apply h.ask <;> simp
  | thenLoads hp => apply h.leave
  | healthyLoads timeout hp =>
      apply h.ask
      · simp
      · rintro _ _ ⟨⟩
        rfl
  | thenReads hp => apply h.leave

/-! ### Runs -/

omit [DecidableEq τ] in
theorem inv_start (origin : ℕ) :
  Inv (State.start origin : State τ)
  := by
  constructor
  · apply Int.natCast_nonneg
  · intro t now ht
    cases ht
  · intro t timeout last ht
    cases ht
  · apply Latest.origin rfl rfl

/-- The runs whose steps are all right are the runs whose times are all stored in the order of the
clock, and in which no `healthy` asks within the timeout from the origin of the clock before the
first `heartbeat` has been completed. -/
theorem run_correct_iff (origin : ℕ) (events : List (Event τ)) (s : State τ) :
  ((system τ).restrict Correct).Run (.start origin) events s
    ↔ ((system τ).restrict InOrder).Run (.start origin) events s
  := by
  apply TransitionSystem.run_restrict_iff (P := Inv)
  · intro s e s' h hs
    apply correct_iff h hs
  · intro s e s' h hs hord
    apply h.step hs hord
  · apply inv_start

/-- A watchdog whose clock starts at 5 is healthy before the first `heartbeat`, when it is asked for
one within 10; and if of two threads that have read the clock at 5 and at 10 the second one stores
its time first, then the last time goes back to 5, and the watchdog that is asked at 12 for a
`heartbeat` within 3 is not healthy. -/
theorem not_correct :
  (∃ s s' : State Bool, (system Bool).Run (.start 5) [.healthyBegins true] s
      ∧ (system Bool).Step s (.healthyReturns true 10 5 true) s'
      ∧ ¬ Correct s (.healthyReturns true 10 5 true) s')
    ∧ (∃ s s' : State Bool,
      (system Bool).Run (.start 5)
        [.heartbeatReads true, .tick 5, .heartbeatReads false, .heartbeatStores false 10] s
      ∧ (system Bool).Step s (.heartbeatStores true 5) s'
      ∧ ¬ Correct s (.heartbeatStores true 5) s')
    ∧ (∃ s s' : State Bool,
      (system Bool).Run (.start 5)
        [.heartbeatReads true, .tick 5, .heartbeatReads false, .heartbeatStores false 10,
          .heartbeatStores true 5, .tick 2, .healthyBegins true] s
      ∧ (system Bool).Step s (.healthyReturns true 3 12 false) s'
      ∧ ¬ Correct s (.healthyReturns true 3 12 false) s')
  := by
  refine ⟨⟨_, _, .cons (.healthyReads 10 rfl) (.nil _), Step.thenLoads rfl, ?_⟩,
    ⟨_, _, .cons (.heartbeatReads rfl) (.cons (.tick _ 5) (.cons (.heartbeatReads rfl)
      (.cons (.heartbeatStores rfl) (.nil _)))), Step.heartbeatStores rfl, ?_⟩,
    ⟨_, _, .cons (.heartbeatReads rfl) (.cons (.tick _ 5) (.cons (.heartbeatReads rfl)
      (.cons (.heartbeatStores rfl) (.cons (.heartbeatStores rfl) (.cons (.tick _ 2)
        (.cons (.healthyReads 3 rfl) (.nil _))))))), Step.thenLoads rfl, ?_⟩⟩
  · intro h
    obtain ⟨time, htime, -⟩ :=
      (h.answers true 10 5 true rfl (by simp [State.ask, State.start])).mp rfl
    cases htime
  · intro h
    apply absurd h.forward (by decide)
  · intro h
    have hfalse := (h.answers true 3 12 false rfl ?_).mpr ⟨10, by decide, by decide⟩
    · cases hfalse
    · intro t now ht
      cases t <;> cases ht

end Watchdog
