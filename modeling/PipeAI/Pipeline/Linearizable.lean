import PipeAI.Concurrency.Linearizability
import PipeAI.Pipeline.BlockingQueue

/-!
# The blocking queue as an atomic queue

`BlockingQueue.members` adds `closed` and `size`, which only read under the mutex, to the operations
of the queue.  To the threads that call its member functions, however their sections, waits,
time-outs and signals interleave, the queue is a bounded list of values that can be closed, with
calls that take effect at one point between their call and their return
(`BlockingQueue.linearizable`).
-/

namespace BlockingQueue

variable {T : Type}

/-! ### The member functions -/

/-- The calls of the member functions that take the mutex. -/
inductive Call (T : Type) where
  | op (o : Op T)
  | closed
  | size

/-- The values they return. -/
inductive Answer (T : Type) where
  | ret (r : Ret T)
  | closed (closed : Bool)
  | size (size : ℕ)

/-- The queue as a monitor, with all member functions that take the mutex. -/
def members (T : Type) : Monitor (BlockingQueue T) Cond (Call T) (Answer T) where
  cond
    | .op o => (monitor T).cond o
    | _ => none
  ready
    | .op o => (monitor T).ready o
    | _ => fun _ => true
  body
    | .op o => fun q => (.ret ((monitor T).body o q).1, ((monitor T).body o q).2)
    | .closed => fun q => (.closed q.closed, q)
    | .size => fun q => (.size q.queue.length, q)
  signals
    | .op o, .ret r => (monitor T).signals o r
    | _, _ => []
  timeout
    | .op o => ((monitor T).timeout o).map .ret
    | _ => none

/-! ### A bounded list -/

/-- What a bounded list of values that can be closed allows: a call at a list, closed or not, may
return a value and leave another. -/
inductive Allows (capacity : ℕ) : List T × Bool → Call T → Answer T → List T × Bool → Prop where
  | accepts {o : Op T} {value : T} {values : List T} (ho : o.pushes = some value)
      (hroom : values.length < capacity) :
      Allows capacity (values, false) (.op o) (.ret (.pushed true)) (values ++ [value], false)
  | refuses {o : Op T} {value : T} {values : List T} (ho : o.pushes = some value) :
      Allows capacity (values, true) (.op o) (.ret (.pushed false)) (values, true)
  | findsFull {value : T} {values : List T} (hfull : values.length = capacity) :
      Allows capacity (values, false) (.op (.pushFor value)) (.ret (.pushed false))
        (values, false)
  | takes {o : Op T} {value : T} {values : List T} {closed : Bool} (ho : o.Pops) :
      Allows capacity (value :: values, closed) (.op o) (.ret (.popped (some value)))
        (values, closed)
  | ends {o : Op T} (ho : o.Pops) :
      Allows capacity ([], true) (.op o) (.ret (.popped none)) ([], true)
  | findsEmpty :
      Allows capacity ([], false) (.op .popFor) (.ret (.popped none)) ([], false)
  | closes {values : List T} {closed : Bool} :
      Allows capacity (values, closed) (.op .close) (.ret .closed) (values, true)
  | closed {values : List T} {closed : Bool} :
      Allows capacity (values, closed) .closed (.closed closed) (values, closed)
  | size {values : List T} {closed : Bool} :
      Allows capacity (values, closed) .size (.size values.length) (values, closed)

/-- The bounded list, from the empty open one. -/
def boundedList (T : Type) (capacity : ℕ) : TransitionSystem (List T × Bool) (Call T × Answer T) where
  Init s := s = ([], false)
  Step s l s' := Allows capacity s l.1 l.2 s'

/-- The calls are what the bounded list allows, one after the other. -/
def Legal {τ : Type} (capacity : ℕ) (L : List (τ × Call T × Answer T)) : Prop :=
  ∃ s, (boundedList T capacity).Run ([], false) (L.map Prod.snd) s

/-- The bounded list that the data of the queue stand for. -/
def contents (q : BlockingQueue T) : List T × Bool :=
  (q.queue, q.closed)

/-- The outcomes of the operations are allowed, and keep the contents within the capacity. -/
theorem Outcome.allows {q q' : BlockingQueue T} {o : Op T} {r : Ret T} (h : Outcome q o r q')
    (hle : q.queue.length ≤ q.capacity) :
  Allows q.capacity q.contents (.op o) (.ret r) q'.contents ∧ q'.capacity = q.capacity
    ∧ q'.queue.length ≤ q'.capacity
  := by
  cases h with
  | accepts ho hopen hroom =>
      refine ⟨?_, rfl, ?_⟩
      · rw [contents, contents, hopen]
        apply Allows.accepts ho hroom
      · simp only [List.length_append, List.length_singleton]
        omega
  | @refuses _ value ho hwhy =>
      refine ⟨?_, rfl, hle⟩
      rw [contents]
      cases hc : q.closed with
      | true => apply Allows.refuses ho
      | false =>
          obtain hclosed | ⟨rfl, hfull⟩ := hwhy
          · cases hc.symm.trans hclosed
          · apply Allows.findsFull (le_antisymm hle hfull)
  | takes ho hq =>
      refine ⟨?_, rfl, ?_⟩
      · rw [contents, contents, hq]
        apply Allows.takes ho
      · rw [hq, List.length_cons] at hle
        apply Nat.le_of_succ_le hle
  | findsNone ho hq hwhy =>
      refine ⟨?_, rfl, hle⟩
      rw [contents, hq]
      cases hc : q.closed with
      | true => apply Allows.ends ho
      | false =>
          obtain hclosed | rfl := hwhy
          · cases hc.symm.trans hclosed
          · apply Allows.findsEmpty
  | closes => exact ⟨Allows.closes, rfl, hle⟩

/-- What the member functions do under the mutex is allowed, and keeps the contents within the
capacity. -/
theorem allows_of_commits {q q' : BlockingQueue T} {c : Call T} {a : Answer T}
    (h : (members T).Commits c q a q') (hle : q.queue.length ≤ q.capacity) :
  Allows q.capacity q.contents c a q'.contents ∧ q'.capacity = q.capacity
    ∧ q'.queue.length ≤ q'.capacity
  := by
  cases c with
  | op o =>
      obtain ⟨hr, hb⟩ | ⟨hr, ht, rfl⟩ := h
      · cases hb
        have hcommits : (monitor T).Commits o q ((monitor T).body o q).1
            ((monitor T).body o q).2 := Or.inl ⟨hr, rfl⟩
        apply (Outcome.of_commits hcommits).allows hle
      · have ht : ((monitor T).timeout o).map .ret = some a := ht
        obtain ⟨r, hgives, rfl⟩ := Option.map_eq_some_iff.mp ht
        have hcommits : (monitor T).Commits o q' r q' := Or.inr ⟨hr, hgives, rfl⟩
        apply (Outcome.of_commits hcommits).allows hle
  | closed =>
      obtain ⟨-, hb⟩ | ⟨hr, -⟩ := h
      · cases hb
        exact ⟨Allows.closed, rfl, hle⟩
      · cases hr
  | size =>
      obtain ⟨-, hb⟩ | ⟨hr, -⟩ := h
      · cases hb
        exact ⟨Allows.size, rfl, hle⟩
      · cases hr

variable {τ : Type}

/-- A sequential run of the member functions is a run of the bounded list. -/
theorem run_of_sequential {q₀ q : BlockingQueue T} {L : List (τ × Call T × Answer T)}
    (h : (members T).Sequential q₀ L q) (hle : q₀.queue.length ≤ q₀.capacity) :
  (boundedList T q₀.capacity).Run q₀.contents (L.map Prod.snd) q.contents
    ∧ q.capacity = q₀.capacity ∧ q.queue.length ≤ q.capacity
  := by
  induction h with
  | nil => exact ⟨.nil _, rfl, hle⟩
  | @snoc L q q' t c a h hc ih =>
      obtain ⟨hrun, hcap, hle⟩ := ih
      obtain ⟨hallows, hcap', hle'⟩ := allows_of_commits hc hle
      rw [hcap] at hallows
      have hstep : (boundedList T q₀.capacity).Step q.contents (c, a) q'.contents := hallows
      refine ⟨?_, hcap'.trans hcap, hle'⟩
      rw [List.map_append]
      apply hrun.append (.cons hstep (.nil _))

variable [DecidableEq τ]

/-- In every run of any threads that call the member functions of a queue with a positive capacity,
with any waits, time-outs, spurious wake-ups and signals, the history of calls and returns is
linearizable: the calls can be put in an order that respects the returns and calls of the history,
and in which they return what those of a bounded list return. -/
theorem linearizable {capacity : ℕ} (hpos : 0 < capacity)
    {s : Monitor.State (BlockingQueue T) Cond (Call T) (Answer T) τ}
    {H : List (Event τ (Call T) (Answer T))}
    (h : ((members T).recorded τ (empty T capacity hpos)).Reachable (s, H)) :
  ∃ L, Linearizes (Legal capacity) H L
  := by
  obtain ⟨⟨q, hsequential⟩, hcalls, hreturns, horder⟩ := Monitor.linearizes_of_reachable h
  obtain ⟨hrun, -⟩ := run_of_sequential hsequential (Nat.zero_le capacity)
  exact ⟨s.log, ⟨_, hrun⟩, hcalls, hreturns, horder⟩

omit [DecidableEq τ] in
/-- The theorem for a pop that is called before the push whose value it returns. -/
theorem linearizable_overlap :
  ∃ (s : Monitor.State (BlockingQueue ℕ) Cond (Call ℕ) (Answer ℕ) Bool)
    (H : List (Event Bool (Call ℕ) (Answer ℕ))),
    ((members ℕ).recorded Bool (empty ℕ 1 Nat.one_pos)).Reachable (s, H)
      ∧ H = [.call true (.op .pop), .call false (.op (.push 7)),
        .ret false (.ret (.pushed true)), .ret true (.ret (.popped (some 7)))]
      ∧ ∃ L, Linearizes (Legal 1) H L
  := by
  have h : ((members ℕ).recorded Bool (empty ℕ 1 Nat.one_pos)).Reachable _ :=
    TransitionSystem.Reachable.init rfl
  have h₁ := h.step (Monitor.RecordedStep.call (t := true) (.op .pop) rfl)
  have h₂ := h₁.step (Monitor.RecordedStep.call (t := false) (.op (.push 7)) rfl)
  have h₃ := h₂.step (Monitor.RecordedStep.internal
    (Monitor.Internal.act (t := false) (Or.inl rfl) rfl))
  have h₄ := h₃.step (Monitor.RecordedStep.internal
    (Monitor.Internal.notifyNone (t := false) rfl (by rintro (_ | _) <;> exact id)))
  have h₅ := h₄.step (Monitor.RecordedStep.ret (t := false) rfl)
  have h₆ := h₅.step (Monitor.RecordedStep.internal
    (Monitor.Internal.act (t := true) (Or.inl rfl) rfl))
  have h₇ := h₆.step (Monitor.RecordedStep.internal
    (Monitor.Internal.notifyNone (t := true) rfl (by rintro (_ | _) <;> exact id)))
  have h₈ := h₇.step (Monitor.RecordedStep.ret (t := true) rfl)
  exact ⟨_, _, h₈, rfl, linearizable Nat.one_pos h₈⟩

end BlockingQueue
