import PipeAI.Concurrency.WakeUp

/-!
# The blocking queue

`BlockingQueue T` is the bounded queue that connects the stages of the pipeline.  Its
operations are those of a monitor with the condition variables `not_empty_` and `not_full_`
(`BlockingQueue.monitor`).

An operation that takes effect pushes a value, refuses one, takes one, finds nothing to take,
or closes the queue (`Outcome`).  The log of the monitor therefore tells which values the
queue has accepted and which have been taken from it, in the order of the sections, and the
accepted values are the taken ones followed by the present contents
(`fifo_of_sequential`).
-/

/-- The data of the queue, guarded by its mutex. -/
structure BlockingQueue (T : Type) where
  capacity : ℕ
  capacity_pos : 0 < capacity
  queue : List T
  closed : Bool

namespace BlockingQueue

variable {T : Type}

/-- The empty queue with a given capacity. -/
def empty (T : Type) (capacity : ℕ) (h : 0 < capacity) : BlockingQueue T where
  capacity := capacity
  capacity_pos := h
  queue := []
  closed := false

/-- The constructor. -/
def create (T : Type) (capacity : ℕ) : Except String (BlockingQueue T) :=
  if h : capacity = 0 then .error "BlockingQueue capacity must be > 0"
  else .ok (empty T capacity (Nat.pos_of_ne_zero h))

/-- The condition variables `not_empty_` and `not_full_`. -/
inductive Cond where
  | notEmpty
  | notFull
  deriving DecidableEq

/-- The calls of the member functions. -/
inductive Op (T : Type) where
  | push (value : T)
  | pushFor (value : T)
  | pop
  | popFor
  | close

/-- The values the member functions return. -/
inductive Ret (T : Type) where
  | pushed (accepted : Bool)
  | popped (value : Option T)
  | closed

/-! ### The sections under the mutex -/

/-- The predicate a push waits for. -/
def pushReady (q : BlockingQueue T) : Bool :=
  q.closed || decide (q.queue.length < q.capacity)

/-- The predicate a pop waits for. -/
def popReady (q : BlockingQueue T) : Bool :=
  q.closed || !q.queue.isEmpty

/-- `emplace_impl` after its wait. -/
def emplaceImpl (value : T) (q : BlockingQueue T) : Bool × BlockingQueue T :=
  if q.closed then (false, q) else (true, { q with queue := q.queue ++ [value] })

/-- `push`. -/
def push (value : T) (q : BlockingQueue T) : Bool × BlockingQueue T :=
  emplaceImpl value q

/-- `push_for` after its wait. -/
def pushFor (value : T) (q : BlockingQueue T) : Bool × BlockingQueue T :=
  if q.closed then (false, q) else (true, { q with queue := q.queue ++ [value] })

/-- `pop` after its wait. -/
def pop (q : BlockingQueue T) : Option T × BlockingQueue T :=
  match q.queue with
  | [] => (none, q)
  | value :: rest => (some value, { q with queue := rest })

/-- `pop_for` after its wait. -/
def popFor (q : BlockingQueue T) : Option T × BlockingQueue T :=
  match q.queue with
  | [] => (none, q)
  | value :: rest => (some value, { q with queue := rest })

/-- `close`. -/
def close (q : BlockingQueue T) : BlockingQueue T :=
  { q with closed := true }

/-- The queue as a monitor. -/
def monitor (T : Type) : Monitor (BlockingQueue T) Cond (Op T) (Ret T) where
  cond
    | .push _ => some .notFull
    | .pushFor _ => some .notFull
    | .pop => some .notEmpty
    | .popFor => some .notEmpty
    | .close => none
  ready
    | .push _ => pushReady
    | .pushFor _ => pushReady
    | .pop => popReady
    | .popFor => popReady
    | .close => fun _ => true
  body
    | .push value => fun q => ((push value q).1 |> .pushed, (push value q).2)
    | .pushFor value => fun q => ((pushFor value q).1 |> .pushed, (pushFor value q).2)
    | .pop => fun q => (.popped (pop q).1, (pop q).2)
    | .popFor => fun q => (.popped (popFor q).1, (popFor q).2)
    | .close => fun q => (.closed, close q)
  signals
    | _, .pushed true => [.one .notEmpty]
    | _, .popped (some _) => [.one .notFull]
    | _, .closed => [.all .notEmpty, .all .notFull]
    | _, _ => []
  timeout
    | .pushFor _ => some (.pushed false)
    | .popFor => some (.popped none)
    | _ => none

/-- A queue at work, used by the threads `τ`. -/
abbrev State (τ T : Type) : Type :=
  Monitor.State (BlockingQueue T) Cond (Op T) (Ret T) τ

/-- The threads `τ` calling the operations of a queue that is `q` at first. -/
def system (τ : Type) [DecidableEq τ] (q : BlockingQueue T) :
    TransitionSystem (State τ T) τ :=
  (monitor T).system τ q

/-- A pop from a closed queue does not wait. -/
theorem popReady_of_closed {q : BlockingQueue T} (h : q.closed = true) :
  (monitor T).ready .pop q = true
  := by
  simp [monitor, popReady, h]

/-- A pop from an empty queue returns nothing and leaves it. -/
theorem body_pop_of_empty {q : BlockingQueue T} (h : q.queue = []) :
  (monitor T).body .pop q = (.popped none, q)
  := by
  simp [monitor, pop, h]

/-- A push on an open queue with room does not wait, and is accepted. -/
theorem push_of_room {q : BlockingQueue T} (hopen : q.closed = false)
    (hroom : q.queue.length < q.capacity) (value : T) :
  (monitor T).ready (.push value) q = true
    ∧ (monitor T).body (.push value) q = (.pushed true, { q with queue := q.queue ++ [value] })
  := by
  simp [monitor, pushReady, push, emplaceImpl, hopen, hroom]

/-! ### What an operation can do -/

/-- The value an operation pushes. -/
def Op.pushes : Op T → Option T
  | .push value => some value
  | .pushFor value => some value
  | _ => none

/-- The operation pops a value. -/
def Op.Pops : Op T → Prop
  | .pop => True
  | .popFor => True
  | _ => False

/-- The effects of the operations: a value is pushed on an open queue with room, or refused;
the oldest value is taken, or there is none; the queue is closed. -/
inductive Outcome (q : BlockingQueue T) : Op T → Ret T → BlockingQueue T → Prop where
  | accepts {op : Op T} {value : T} (hop : op.pushes = some value) (hopen : q.closed = false)
      (hroom : q.queue.length < q.capacity) :
      Outcome q op (.pushed true) { q with queue := q.queue ++ [value] }
  | refuses {op : Op T} {value : T} (hop : op.pushes = some value)
      (hwhy : q.closed = true ∨ op = .pushFor value ∧ q.capacity ≤ q.queue.length) :
      Outcome q op (.pushed false) q
  | takes {op : Op T} {value : T} {rest : List T} (hop : op.Pops)
      (hq : q.queue = value :: rest) :
      Outcome q op (.popped (some value)) { q with queue := rest }
  | findsNone {op : Op T} (hop : op.Pops) (hq : q.queue = [])
      (hwhy : q.closed = true ∨ op = .popFor) : Outcome q op (.popped none) q
  | closes : Outcome q .close .closed { q with closed := true }

/-- An operation that pushes does not pop. -/
theorem Op.not_pops_of_pushes {op : Op T} {value : T} (h : op.pushes = some value) :
  ¬ op.Pops
  := by
  cases op with
  | push value => exact not_false
  | pushFor value => exact not_false
  | _ => cases h

/-- A push whose predicate fails finds an open queue with no room. -/
theorem of_not_pushReady {q : BlockingQueue T} (h : q.pushReady = false) :
  q.closed = false ∧ q.capacity - q.queue.length = 0
  := by
  rw [pushReady, Bool.or_eq_false_iff, decide_eq_false_iff_not] at h
  use h.1
  omega

/-- A pop whose predicate fails finds an open queue with no value. -/
theorem of_not_popReady {q : BlockingQueue T} (h : q.popReady = false) :
  q.closed = false ∧ q.queue.length = 0
  := by
  rw [popReady, Bool.or_eq_false_iff] at h
  use h.1
  simpa using h.2

/-- A push waits for `not_full_`, until the queue is closed or has room. -/
theorem Op.cond_of_pushes {op : Op T} {value : T} (h : op.pushes = some value) :
  (monitor T).cond op = some .notFull ∧ (monitor T).ready op = pushReady
  := by
  cases op with
  | push value => exact ⟨rfl, rfl⟩
  | pushFor value => exact ⟨rfl, rfl⟩
  | _ => cases h

/-- A pop waits for `not_empty_`, until the queue is closed or has a value. -/
theorem Op.cond_of_pops {op : Op T} (h : op.Pops) :
  (monitor T).cond op = some .notEmpty ∧ (monitor T).ready op = popReady
  := by
  cases op with
  | pop => exact ⟨rfl, rfl⟩
  | popFor => exact ⟨rfl, rfl⟩
  | _ => cases h

/-- The section of a push whose predicate holds. -/
theorem Outcome.of_emplace {q : BlockingQueue T} {op : Op T} {value : T}
    (hop : op.pushes = some value) (hr : q.pushReady = true) :
  Outcome q op (.pushed (emplaceImpl value q).1) (emplaceImpl value q).2
  := by
  rw [pushReady, Bool.or_eq_true, decide_eq_true_eq] at hr
  cases hc : q.closed with
  | true =>
      rw [emplaceImpl, if_pos hc]
      apply Outcome.refuses hop
      left
      apply hc
  | false =>
      rw [emplaceImpl, if_neg (by simp [hc])]
      apply Outcome.accepts hop hc
      simpa [hc] using hr

/-- The section of a pop whose predicate holds. -/
theorem Outcome.of_pop {q : BlockingQueue T} {op : Op T} (hop : op.Pops)
    (hr : q.popReady = true) :
  Outcome q op (.popped (pop q).1) (pop q).2
  := by
  rw [popReady, Bool.or_eq_true] at hr
  rw [pop]
  cases hq : q.queue with
  | nil =>
      apply Outcome.findsNone hop hq
      left
      simpa [hq] using hr
  | cons value rest => apply Outcome.takes hop hq

/-- An operation of the monitor takes effect in one of the ways of `Outcome`. -/
theorem Outcome.of_commits {q q' : BlockingQueue T} {op : Op T} {r : Ret T}
    (h : (monitor T).Commits op q r q') :
  Outcome q op r q'
  := by
  obtain ⟨hr, hb⟩ | ⟨hr, ht, rfl⟩ := h
  · cases op with
    | push value =>
        cases hb
        apply Outcome.of_emplace rfl hr
    | pushFor value =>
        cases hb
        apply Outcome.of_emplace rfl hr
    | pop =>
        cases hb
        have hop : (Op.pop : Op T).Pops := trivial
        apply Outcome.of_pop hop hr
    | popFor =>
        cases hb
        have hop : (Op.popFor : Op T).Pops := trivial
        apply Outcome.of_pop hop hr
    | close =>
        cases hb
        apply Outcome.closes
  · cases op with
    | pushFor value =>
        cases ht
        have hfull := (of_not_pushReady hr).2
        apply Outcome.refuses rfl
        right
        use rfl
        omega
    | popFor =>
        cases ht
        have hempty := (of_not_popReady hr).2
        have hop : (Op.popFor : Op T).Pops := trivial
        apply Outcome.findsNone hop (List.eq_nil_of_length_eq_zero hempty)
        right
        rfl
    | _ => cases ht

/-! ### The values accepted and taken -/

/-- The value an entry of the log says has been accepted. -/
def acceptedValue : Op T → Ret T → Option T
  | op, .pushed true => op.pushes
  | _, _ => none

/-- The value an entry of the log says has been taken. -/
def takenValue : Ret T → Option T
  | .popped value => value
  | _ => none

variable {τ : Type}

/-- The values of all pushes that returned true or will, in the order of their sections. -/
def accepted (log : List (τ × Op T × Ret T)) : List T :=
  log.filterMap (fun e => acceptedValue e.2.1 e.2.2)

/-- The values taken by all pops, in the order of their sections. -/
def taken (log : List (τ × Op T × Ret T)) : List T :=
  log.filterMap (fun e => takenValue e.2.2)

@[simp]
theorem accepted_nil :
  accepted ([] : List (τ × Op T × Ret T)) = []
  := rfl

@[simp]
theorem taken_nil :
  taken ([] : List (τ × Op T × Ret T)) = []
  := rfl

@[simp]
theorem accepted_snoc (log : List (τ × Op T × Ret T)) (t : τ) (op : Op T) (r : Ret T) :
  accepted (log ++ [(t, op, r)]) = accepted log ++ (acceptedValue op r).toList
  := by
  rw [accepted, List.filterMap_append, accepted]
  cases h : acceptedValue op r <;> simp [h]

@[simp]
theorem taken_snoc (log : List (τ × Op T × Ret T)) (t : τ) (op : Op T) (r : Ret T) :
  taken (log ++ [(t, op, r)]) = taken log ++ (takenValue r).toList
  := by
  rw [taken, List.filterMap_append, taken]
  cases h : takenValue r <;> simp [h]

/-- An effect keeps the accepted values equal to the taken ones followed by the contents, and
the contents within the capacity. -/
theorem Outcome.fifo {q q' : BlockingQueue T} {op : Op T} {r : Ret T} (h : Outcome q op r q')
    {log : List (τ × Op T × Ret T)} (t : τ) (hlog : accepted log = taken log ++ q.queue)
    (hlen : q.queue.length ≤ q.capacity) :
  accepted (log ++ [(t, op, r)]) = taken (log ++ [(t, op, r)]) ++ q'.queue
    ∧ q'.queue.length ≤ q'.capacity
  := by
  rw [accepted_snoc, taken_snoc, hlog]
  cases h with
  | accepts hop hopen hroom =>
      simp [acceptedValue, takenValue, hop]
      omega
  | refuses hop hwhy => simpa [acceptedValue, takenValue] using hlen
  | takes hop hq =>
      rw [hq, List.length_cons] at hlen
      simp [acceptedValue, takenValue, hq]
      omega
  | findsNone hop hq hwhy => simpa [acceptedValue, takenValue] using hlen
  | closes => simpa [acceptedValue, takenValue] using hlen

/-- No effect changes the capacity. -/
theorem Outcome.capacity_eq {q q' : BlockingQueue T} {op : Op T} {r : Ret T}
    (h : Outcome q op r q') :
  q'.capacity = q.capacity
  := by
  cases h <;> rfl

/-- A closed queue stays closed. -/
theorem Outcome.closed_mono {q q' : BlockingQueue T} {op : Op T} {r : Ret T}
    (h : Outcome q op r q') (hc : q.closed = true) :
  q'.closed = true
  := by
  cases h with
  | closes => rfl
  | _ => apply hc

/-- Along a sequential run from an empty queue, the accepted values are the taken ones followed
by the contents, which stay within the capacity. -/
theorem fifo_of_sequential {q₀ q : BlockingQueue T} (hq₀ : q₀.queue = [])
    {log : List (τ × Op T × Ret T)} (h : (monitor T).Sequential q₀ log q) :
  (accepted log = taken log ++ q.queue ∧ q.queue.length ≤ q.capacity) ∧ q.capacity = q₀.capacity
  := by
  induction h with
  | nil => simp [hq₀]
  | @snoc _ _ _ t _ _ _ hc ih =>
      have ho := Outcome.of_commits hc
      constructor
      · apply ho.fifo t ih.1.1 ih.1.2
      · rw [ho.capacity_eq, ih.2]

variable [DecidableEq τ]

/-- In every run the contents are within the capacity. -/
theorem length_queue_le {capacity : ℕ} (hpos : 0 < capacity) {s : State τ T}
    (h : (system τ (empty T capacity hpos)).Reachable s) :
  s.shared.queue.length ≤ capacity
  := by
  obtain ⟨⟨-, hlen⟩, hcap⟩ := fifo_of_sequential rfl (Monitor.sequential_of_reachable h)
  rw [hcap] at hlen
  apply hlen

/-- In every reachable state of a queue with a positive capacity, the values of the pushes
that return true, in the order of their sections, are the values taken by the pops, in the
order of theirs, followed by the contents; the contents are within the capacity; a thread
past its section returns what the log says; and a push that returns false changes nothing. -/
theorem fifo_of_reachable {capacity : ℕ} (hpos : 0 < capacity) {s : State τ T}
    (h : (system τ (empty T capacity hpos)).Reachable s) :
  accepted s.log = taken s.log ++ s.shared.queue
    ∧ s.shared.queue.length ≤ capacity
    ∧ (∀ t r, (s.phase t).view = .after r →
        ∃ op before later, s.log = before ++ (t, op, r) :: later ∧ ∀ e ∈ later, e.1 ≠ t)
    ∧ ∀ t s' op, (monitor T).Step s t s' → s'.log = s.log ++ [(t, op, .pushed false)] →
        s'.shared = s.shared
  := by
  obtain ⟨⟨hlog, -⟩, -⟩ := fifo_of_sequential rfl (Monitor.sequential_of_reachable h)
  refine ⟨hlog, length_queue_le hpos h, ?_, ?_⟩
  · intro t r hv
    apply Monitor.last_entry_of_reachable h hv
  · intro t s' op hs hlog'
    have ho := Outcome.of_commits (hs.commits hlog')
    generalize s'.shared = q' at ho
    cases ho with
    | refuses hop hwhy => rfl

omit [DecidableEq τ] in
/-- The theorem after a push. -/
theorem fifo_of_reachable_push :
  ∃ s : State Unit ℕ, (system Unit (empty ℕ 1 Nat.one_pos)).Reachable s ∧ s.shared.queue = [7]
    ∧ accepted s.log = taken s.log ++ s.shared.queue
    ∧ s.shared.queue.length ≤ 1
    ∧ (∀ t r, (s.phase t).view = .after r →
        ∃ op before later, s.log = before ++ (t, op, r) :: later ∧ ∀ e ∈ later, e.1 ≠ t)
    ∧ ∀ t s' op, (monitor ℕ).Step s t s' → s'.log = s.log ++ [(t, op, .pushed false)] →
        s'.shared = s.shared
  := by
  have h : (system Unit (empty ℕ 1 Nat.one_pos)).Reachable _ := TransitionSystem.Reachable.init rfl
  have h₁ := h.step (Monitor.Step.call (t := ()) (.push 7) rfl)
  have h₂ := h₁.step (Monitor.Step.internal (Monitor.Internal.act (t := ()) (Or.inl rfl) rfl))
  exact ⟨_, h₂, rfl, fifo_of_reachable Nat.one_pos h₂⟩

/-! ### Shutdown -/

/-- No operation pushes a value on a closed queue. -/
theorem Outcome.refused_of_closed {q q' : BlockingQueue T} {op : Op T} {r : Ret T}
    (h : Outcome q op r q') (hc : q.closed = true) {value : T} (hop : op.pushes = some value) :
  r = .pushed false
  := by
  cases h with
  | accepts _ hopen _ =>
      rw [hc] at hopen
      cases hopen
  | refuses => rfl
  | takes hpops _ => apply absurd hpops (Op.not_pops_of_pushes hop)
  | findsNone hpops _ _ => apply absurd hpops (Op.not_pops_of_pushes hop)
  | closes => cases hop

/-- The queue is closed and empty. -/
def Drained (q : BlockingQueue T) : Prop :=
  q.closed = true ∧ q.queue = []

/-- A pop that returns nothing leaves the queue as it is, empty, and closed unless it is timed. -/
theorem Outcome.of_popped_none {q q' : BlockingQueue T} {op : Op T}
    (h : Outcome q op (.popped none) q') :
  q' = q ∧ q.queue = [] ∧ (q.closed = true ∨ op = .popFor)
  := by
  cases h with
  | findsNone hop hq hwhy => exact ⟨rfl, hq, hwhy⟩

/-- The operation takes no value, and pushes none. -/
structure Futile (op : Op T) (r : Ret T) : Prop where
  pops : op.Pops → r = .popped none
  pushes : ∀ value, op.pushes = some value → r = .pushed false
  taken : takenValue r = none

/-- A closed and empty queue stays so, and no operation gets a value or pushes one. -/
theorem Outcome.drained {q q' : BlockingQueue T} {op : Op T} {r : Ret T} (h : Outcome q op r q')
    (hq : q.Drained) :
  q'.Drained ∧ Futile op r
  := by
  have hrefused : ∀ value, op.pushes = some value → r = .pushed false :=
    fun _ hop => h.refused_of_closed hq.1 hop
  cases h with
  | accepts _ hopen _ =>
      rw [hq.1] at hopen
      cases hopen
  | refuses hop hwhy =>
      exact ⟨hq, fun hpops => absurd hpops (Op.not_pops_of_pushes hop), hrefused, rfl⟩
  | takes _ hcons =>
      rw [hq.2] at hcons
      cases hcons
  | findsNone hop hempty hwhy => exact ⟨hq, fun _ => rfl, hrefused, rfl⟩
  | closes => exact ⟨⟨rfl, hq.2⟩, fun hpops => hpops.elim, hrefused, rfl⟩

omit [DecidableEq τ] in
/-- A sequential run from a closed queue ends with a closed queue. -/
theorem closed_of_closed {q₀ q : BlockingQueue T} {log : List (τ × Op T × Ret T)}
    (h : (monitor T).Sequential q₀ log q) (hclosed : q₀.closed = true) :
  q.closed = true
  := (h.preserves (P := fun q => q.closed = true) (Q := fun _ _ => True)
    (fun _ _ _ _ hq hc => ⟨(Outcome.of_commits hc).closed_mono hq, trivial⟩) hclosed).1

omit [DecidableEq τ] in
/-- A sequential run with an operation that closes the queue ends with a closed queue. -/
theorem closed_of_sequential {q₀ q : BlockingQueue T} {log : List (τ × Op T × Ret T)}
    (h : (monitor T).Sequential q₀ log q) (hclose : ∃ e ∈ log, e.2.1 = .close) :
  q.closed = true
  := by
  obtain ⟨⟨t, op, r⟩, he, rfl⟩ := hclose
  obtain ⟨before, later, rfl⟩ := List.append_of_mem he
  obtain ⟨q₁, q₂, -, hc, hlater⟩ := h.entry
  have hclosed : q₂.closed = true := by
    have ho := Outcome.of_commits hc
    cases ho with
    | closes => rfl
    | accepts hop => cases hop
    | refuses hop => cases hop
    | takes hop => cases hop
    | findsNone hop => cases hop
  apply closed_of_closed hlater hclosed

omit [DecidableEq τ] in
/-- All pushes of a sequential run that ends with an open queue have been accepted. -/
theorem pushed_of_open {q₀ q : BlockingQueue T} {log : List (τ × Op T × Ret T)}
    (h : (monitor T).Sequential q₀ log q) (hopen : q.closed = false) {e : τ × Op T × Ret T}
    (he : e ∈ log) {value : T} (hop : e.2.1 = .push value) :
  e.2.2 = .pushed true
  := by
  obtain ⟨t, op, r⟩ := e
  obtain rfl : op = .push value := hop
  obtain ⟨before, later, rfl⟩ := List.append_of_mem he
  obtain ⟨q₁, q₂, -, hc, hlater⟩ := h.entry
  cases Outcome.of_commits hc with
  | accepts => rfl
  | refuses _ hwhy =>
      obtain hclosed | ⟨hfor, -⟩ := hwhy
      · cases hopen.symm.trans (closed_of_closed hlater hclosed)
      · cases hfor
  | takes hpops => cases hpops
  | findsNone hpops => cases hpops

/-- The shutdown of a queue.  It stays closed, and no push after a `close` is accepted.  A `pop`
returns nothing only when the queue is closed and empty, a `pop_for` only when it is empty.  Once
a `pop` has returned nothing, the values accepted are those taken before it, in the order of
acceptance, and no later operation gets a value or pushes one.  What a call returns is in the
log. -/
theorem shutdown_of_reachable {capacity : ℕ} (hpos : 0 < capacity) {s : State τ T}
    (h : (system τ (empty T capacity hpos)).Reachable s) :
  (∀ t s', (monitor T).Step s t s' → s.shared.closed = true → s'.shared.closed = true)
    ∧ (∀ before t op r later, s.log = before ++ (t, op, r) :: later →
        (∃ e ∈ before, e.2.1 = .close) → ∀ value, op.pushes = some value → r = .pushed false)
    ∧ (∀ t s', (monitor T).Step s t s' → s'.log = s.log ++ [(t, .pop, .popped none)] →
        s.shared.closed = true ∧ s.shared.queue = [])
    ∧ (∀ t s', (monitor T).Step s t s' → s'.log = s.log ++ [(t, .popFor, .popped none)] →
        s.shared.queue = [])
    ∧ (∀ before t later, s.log = before ++ (t, .pop, .popped none) :: later →
        accepted s.log = taken before
        ∧ taken s.log = taken before
        ∧ ∀ e ∈ later, (e.2.1.Pops → e.2.2 = .popped none)
          ∧ ∀ value, e.2.1.pushes = some value → e.2.2 = .pushed false)
    ∧ ∀ t r, (s.phase t).view = .after r →
        ∃ op before later, s.log = before ++ (t, op, r) :: later ∧ ∀ e ∈ later, e.1 ≠ t
  := by
  have hrun := Monitor.sequential_of_reachable h
  refine ⟨?_, ?_, ?_, ?_, ?_, ?_⟩
  · intro t s' hs hclosed
    obtain hshared | ⟨op, r, hc⟩ := hs.shared_or_commits
    · rw [hshared, hclosed]
    · apply (Outcome.of_commits hc).closed_mono hclosed
  · intro before t op r later hlog hclose value hop
    rw [hlog] at hrun
    obtain ⟨q₁, q₂, hbefore, hc, -⟩ := hrun.entry
    apply (Outcome.of_commits hc).refused_of_closed (closed_of_sequential hbefore hclose) hop
  · intro t s' hs hlog
    obtain ⟨-, hempty, hclosed | hop⟩ := (Outcome.of_commits (hs.commits hlog)).of_popped_none
    · exact ⟨hclosed, hempty⟩
    · cases hop
  · intro t s' hs hlog
    apply (Outcome.of_commits (hs.commits hlog)).of_popped_none.2.1
  · intro before t later hlog
    have hfifo := (fifo_of_sequential rfl hrun).1.1
    rw [hlog] at hrun
    obtain ⟨q₁, q₂, hbefore, hc, hlater⟩ := hrun.entry
    obtain ⟨rfl, hempty, hclosed | hop⟩ := (Outcome.of_commits hc).of_popped_none
    · obtain ⟨⟨-, hdrained⟩, hfutile⟩ := hlater.preserves (P := Drained) (Q := Futile)
        (fun _ _ _ _ hq hc => (Outcome.of_commits hc).drained hq) ⟨hclosed, hempty⟩
      have htaken : taken s.log = taken before := by
        have hnone : taken later = [] := by
          rw [taken, List.filterMap_eq_nil_iff]
          intro e he
          apply (hfutile e he).taken
        rw [hlog, taken, List.filterMap_append, List.filterMap_cons]
        simpa [takenValue, taken] using hnone
      rw [hdrained, List.append_nil, htaken] at hfifo
      exact ⟨hfifo, htaken, fun e he => ⟨(hfutile e he).pops, (hfutile e he).pushes⟩⟩
    · cases hop
  · intro t r hv
    apply Monitor.last_entry_of_reachable h hv

omit [DecidableEq τ] in
/-- The theorem after five calls of different threads: a value is pushed, the queue is closed, the
value is popped, nothing is left to pop, and a push is refused. -/
theorem shutdown_of_reachable_drained :
  ∃ s : State (Fin 5) ℕ, (system (Fin 5) (empty ℕ 1 Nat.one_pos)).Reachable s
    ∧ s.log = [(0, .push 7, .pushed true), (1, .close, .closed), (2, .pop, .popped (some 7)),
      (3, .pop, .popped none), (4, .push 9, .pushed false)]
    ∧ (∀ t s', (monitor ℕ).Step s t s' → s.shared.closed = true → s'.shared.closed = true)
    ∧ (∀ before t op r later, s.log = before ++ (t, op, r) :: later →
        (∃ e ∈ before, e.2.1 = .close) → ∀ value, op.pushes = some value → r = .pushed false)
    ∧ accepted s.log = [7]
    ∧ taken s.log = [7]
  := by
  have h : (system (Fin 5) (empty ℕ 1 Nat.one_pos)).Reachable _ :=
    TransitionSystem.Reachable.init rfl
  have h₁ := h.step (Monitor.Step.call (t := 0) (.push 7) rfl)
  have h₂ := h₁.step (Monitor.Step.internal (Monitor.Internal.act (t := 0) (Or.inl rfl) rfl))
  have h₃ := h₂.step (Monitor.Step.call (t := 1) .close rfl)
  have h₄ := h₃.step (Monitor.Step.internal (Monitor.Internal.act (t := 1) (Or.inl rfl) rfl))
  have h₅ := h₄.step (Monitor.Step.call (t := 2) .pop rfl)
  have h₆ := h₅.step (Monitor.Step.internal (Monitor.Internal.act (t := 2) (Or.inl rfl) rfl))
  have h₇ := h₆.step (Monitor.Step.call (t := 3) .pop rfl)
  have h₈ := h₇.step (Monitor.Step.internal (Monitor.Internal.act (t := 3) (Or.inl rfl) rfl))
  have h₉ := h₈.step (Monitor.Step.call (t := 4) (.push 9) rfl)
  have h₁₀ := h₉.step (Monitor.Step.internal (Monitor.Internal.act (t := 4) (Or.inl rfl) rfl))
  obtain ⟨hclosed, hrefused, -, -, hdrained, -⟩ := shutdown_of_reachable Nat.one_pos h₁₀
  obtain ⟨haccepted, htaken, -⟩ := hdrained
    [(0, .push 7, .pushed true), (1, .close, .closed), (2, .pop, .popped (some 7))] 3
    [(4, .push 9, .pushed false)] rfl
  exact ⟨_, h₁₀, rfl, hclosed, hrefused, haccepted, htaken⟩

/-! ### Wake-ups -/

/-- The waiters of `c` that could go on: as many as the values in the queue for `not_empty_`, as
many as the free places for `not_full_`. -/
def supplyCount : Cond → BlockingQueue T → ℕ
  | .notEmpty, q => q.queue.length
  | .notFull, q => q.capacity - q.queue.length

/-- The effect of an operation on the waiters that could go on is paid for by its signals. -/
theorem Outcome.paid {q q' : BlockingQueue T} {op : Op T} {r : Ret T} (h : Outcome q op r q')
    (hr : (monitor T).ready op q = true) (c : Cond) :
  .all c ∈ (monitor T).signals op r ∨
    (q'.closed = q.closed ∧ (q.closed = false →
      supplyCount c q' + (if (monitor T).cond op = some c then 1 else 0)
        ≤ supplyCount c q + ((monitor T).signals op r).count (.one c)))
  := by
  cases h with
  | accepts hop hopen hroom =>
      right
      use rfl
      intro _
      have hsignals : (monitor T).signals op (.pushed true) = [.one .notEmpty] := rfl
      rw [(Op.cond_of_pushes hop).1, hsignals]
      cases c with
      | notEmpty => simp [supplyCount]
      | notFull =>
          simp [supplyCount]
          omega
  | refuses hop hwhy =>
      right
      use rfl
      intro hopen
      rw [(Op.cond_of_pushes hop).2, pushReady, hopen, Bool.false_or, decide_eq_true_eq] at hr
      rw [hopen] at hwhy
      obtain hc | ⟨-, hfull⟩ := hwhy
      · cases hc
      · omega
  | @takes op value rest hop hq =>
      right
      use rfl
      intro _
      have hsignals : (monitor T).signals op (.popped (some value)) = [.one .notFull] := rfl
      rw [(Op.cond_of_pops hop).1, hsignals]
      cases c with
      | notEmpty => simp [supplyCount, hq]
      | notFull =>
          simp [supplyCount, hq]
          omega
  | findsNone hop hq hwhy =>
      right
      use rfl
      intro hopen
      rw [(Op.cond_of_pops hop).2, popReady, hopen, hq] at hr
      cases hr
  | closes =>
      left
      cases c <;> simp [monitor]

/-- The supply of the queue: closing it releases all waiters. -/
def supply (T : Type) : (monitor T).Supply where
  count := supplyCount
  released _ q := q.closed
  blocked op c q hc hr := by
    cases op with
    | push value =>
        cases hc
        apply of_not_pushReady hr
    | pushFor value =>
        cases hc
        apply of_not_pushReady hr
    | pop =>
        cases hc
        apply of_not_popReady hr
    | popFor =>
        cases hc
        apply of_not_popReady hr
    | close => cases hc
  paid op c q hr := by
    have h : (monitor T).Commits op q ((monitor T).body op q).1 ((monitor T).body op q).2 := by
      left
      exact ⟨hr, rfl⟩
    apply (Outcome.of_commits h).paid hr

/-- In every reachable state of a queue with a positive capacity where no notification is
pending and no woken thread has to evaluate its predicate again, a thread that waits on
`not_empty_` finds the queue open and empty, and a thread that waits on `not_full_` finds it
open and full. -/
theorem no_lost_wakeup [Fintype τ] {capacity : ℕ} (hpos : 0 < capacity) {s : State τ T}
    (h : (system τ (empty T capacity hpos)).Reachable s) (hq : Monitor.Quiescent s) (t : τ) :
  ((monitor T).WaitsOn .notEmpty (s.phase t) →
      s.shared.queue = [] ∧ s.shared.closed = false)
    ∧ ((monitor T).WaitsOn .notFull (s.phase t) →
      s.shared.queue.length = capacity ∧ s.shared.closed = false)
  := by
  obtain ⟨⟨-, hlen⟩, hcap⟩ := fifo_of_sequential rfl (Monitor.sequential_of_reachable h)
  constructor
  · intro hw
    obtain ⟨hopen, hcount⟩ := (supply T).not_ready_of_quiescent h hq hw
    use List.eq_nil_of_length_eq_zero hcount
    apply hopen
  · intro hw
    obtain ⟨hopen, hcount⟩ := (supply T).not_ready_of_quiescent h hq hw
    have hcount : s.shared.capacity - s.shared.queue.length = 0 := hcount
    have hcap : s.shared.capacity = capacity := hcap
    constructor
    · omega
    · apply hopen

omit [DecidableEq τ] in
/-- The theorem with a thread that waits in `pop`. -/
theorem no_lost_wakeup_pop :
  ∃ s : State Unit ℕ, (system Unit (empty ℕ 1 Nat.one_pos)).Reachable s ∧ Monitor.Quiescent s
    ∧ (monitor ℕ).WaitsOn .notEmpty (s.phase ())
    ∧ ((monitor ℕ).WaitsOn .notEmpty (s.phase ()) →
        s.shared.queue = [] ∧ s.shared.closed = false)
    ∧ ((monitor ℕ).WaitsOn .notFull (s.phase ()) →
        s.shared.queue.length = 1 ∧ s.shared.closed = false)
  := by
  have h : (system Unit (empty ℕ 1 Nat.one_pos)).Reachable _ := TransitionSystem.Reachable.init rfl
  have h₁ := h.step (Monitor.Step.call (t := ()) .pop rfl)
  have h₂ := h₁.step (Monitor.Step.internal (Monitor.Internal.block (t := ()) (Or.inl rfl) rfl))
  have hq : Monitor.Quiescent (((Monitor.initial Cond (Op ℕ) (Ret ℕ) Unit
      (empty ℕ 1 Nat.one_pos)).call () .pop).setPhase () (.waiting .pop)) := by
    intro t
    rw [Monitor.State.setPhase_phase_self]
    constructor
    · intro r pending hp
      cases hp
    · intro op b hp
      cases hp
  exact ⟨_, h₂, hq, rfl, no_lost_wakeup Nat.one_pos h₂ hq ()⟩

end BlockingQueue
