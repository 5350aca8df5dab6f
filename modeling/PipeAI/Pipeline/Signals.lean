import PipeAI.Pipeline.Termination

/-!
# Signals between the ends of a queue

While a queue is open, a thread that waits in `pop` though there is a value, or in `push` though
there is room, is not left alone: a thread that has pushed or popped has still to send its signal,
or a thread that has been woken has still to evaluate its predicate again
(`signal_of_waiting`).  Where only one thread pops, it is a thread that has pushed, and its next
step wakes the one that waits (`Notifies.wakes`).

The traffic of a queue is the number of values it has accepted and given away.  While the queue
is open, every section of `push` and of `pop` that has an effect adds to it
(`silent_or_traffic_lt`).
-/

namespace BlockingQueue

variable {T τ : Type}

/-- The operations without a limit of time. -/
def Op.Untimed (op : Op T) : Prop :=
  op = .pop ∨ op = .close ∨ ∃ value, op = .push value

/-! ### Pending signals -/

/-- A signal for one waiter of `not_empty_` is that of a push. -/
theorem eq_pushed_of_one_mem {op : Op T} {r : Ret T} {pending : List (Signal Cond)}
    (h : pending <:+ (monitor T).signals op r) (hmem : .one .notEmpty ∈ pending) :
  r = .pushed true ∧ pending = [.one .notEmpty]
  := by
  rcases r with (_ | _) | (_ | value) | _
  · cases h.subset hmem
  · have hsignals : (monitor T).signals op (.pushed true) = [.one .notEmpty] := rfl
    rw [hsignals, List.suffix_cons_iff, List.suffix_nil] at h
    obtain rfl | rfl := h
    · exact ⟨rfl, rfl⟩
    · cases hmem
  · cases h.subset hmem
  · have hmem : Signal.one Cond.notEmpty ∈ [Signal.one Cond.notFull] := h.subset hmem
    cases List.mem_singleton.mp hmem
  · have hmem : Signal.one Cond.notEmpty ∈ [Signal.all Cond.notEmpty, Signal.all Cond.notFull] :=
      h.subset hmem
    simp at hmem

/-- A signal for one waiter of `not_full_` is that of a pop that has taken a value. -/
theorem eq_popped_of_one_mem {op : Op T} {r : Ret T} {pending : List (Signal Cond)}
    (h : pending <:+ (monitor T).signals op r) (hmem : .one .notFull ∈ pending) :
  (∃ value, r = .popped (some value)) ∧ pending = [.one .notFull]
  := by
  rcases r with (_ | _) | (_ | value) | _
  · cases h.subset hmem
  · have hmem : Signal.one Cond.notFull ∈ [Signal.one Cond.notEmpty] := h.subset hmem
    cases List.mem_singleton.mp hmem
  · cases h.subset hmem
  · have hsignals : (monitor T).signals op (.popped (some value)) = [.one .notFull] := rfl
    rw [hsignals, List.suffix_cons_iff, List.suffix_nil] at h
    obtain rfl | rfl := h
    · exact ⟨⟨value, rfl⟩, rfl⟩
    · cases hmem
  · have hmem : Signal.one Cond.notFull ∈ [Signal.all Cond.notEmpty, Signal.all Cond.notFull] :=
      h.subset hmem
    simp at hmem

variable [DecidableEq τ]

/-- In an open queue, where a thread waits on `c` though it could go on, a signal for one waiter
of `c` is pending, or a waiter of `c` has been woken. -/
theorem signal_of_waiting [Fintype τ] {q₀ : BlockingQueue T} {s : State τ T}
    (h : ((monitor T).system τ q₀).Reachable s) (hopen : s.shared.closed = false) {t : τ}
    {c : Cond} (hw : (monitor T).WaitsOn c (s.phase t)) (hcount : 0 < supplyCount c s.shared) :
  ∃ u, (∃ op r pending, s.phase u = .leaving r pending ∧ .one c ∈ pending
      ∧ pending <:+ (monitor T).signals op r)
    ∨ ∃ op b, s.phase u = .woken op b ∧ (monitor T).cond op = some c
  := by
  obtain ⟨u, hu⟩ := (supply T).exists_credit h hw hcount
  have hsends := Monitor.sends_of_reachable h u
  use u
  cases hp : s.phase u with
  | leaving r pending =>
      left
      rw [hp] at hu hsends
      obtain ⟨op, hop⟩ := hsends
      refine ⟨op, r, pending, rfl, ?_, hop⟩
      obtain hall | hone := hu
      · obtain rfl := eq_closed_of_all_mem (hop.subset hall)
        have hclosed := closed_of_after h u (by rw [hp]; rfl)
        cases hopen.symm.trans hclosed
      · apply List.count_pos_iff.mp hone
  | woken op b =>
      right
      rw [hp] at hu
      obtain hrel | hcredit := hu
      · cases hrel
      · refine ⟨op, b, rfl, ?_⟩
        by_contra hne
        rw [Monitor.credit, if_neg hne] at hcredit
        cases hcredit
  | _ =>
      rw [hp] at hu
      obtain hrel | hcredit := hu
      · cases hrel
      · cases hcredit

omit [DecidableEq τ] in
/-- The thread has pushed a value, and has still to send its signal. -/
def Notifies (s : State τ T) (t : τ) : Prop :=
  s.phase t = .leaving (.pushed true) [.one .notEmpty]

omit [DecidableEq τ] in
/-- An operation that waits on `not_empty_` pops. -/
theorem Op.pops_of_cond {op : Op T} (h : (monitor T).cond op = some .notEmpty) :
  op.Pops
  := by
  cases op with
  | pop => trivial
  | popFor => trivial
  | _ => cases h

omit [DecidableEq τ] in
/-- An operation that waits on `not_full_` pushes. -/
theorem Op.pushes_of_cond {op : Op T} (h : (monitor T).cond op = some .notFull) :
  ∃ value, op.pushes = some value
  := by
  cases op with
  | push value => exact ⟨value, rfl⟩
  | pushFor value => exact ⟨value, rfl⟩
  | _ => cases h

/-- In an open queue, where the only thread that pops waits though there is a value, a thread has
still to send the signal of its push. -/
theorem exists_notifies [Fintype τ] {q₀ : BlockingQueue T} {s : State τ T}
    (h : ((monitor T).system τ q₀).Reachable s) (hopen : s.shared.closed = false) {c : τ}
    (honly : OnlyPops s c) (hw : s.phase c = .waiting .pop) (hne : s.shared.queue ≠ []) :
  ∃ u, Notifies s u
  := by
  have hwaits : (monitor T).WaitsOn .notEmpty (s.phase c) := by
    rw [hw]
    rfl
  obtain ⟨u, ⟨op, r, pending, hp, hmem, hsuffix⟩ | ⟨op, b, hp, hcond⟩⟩ :=
    signal_of_waiting h hopen hwaits (List.length_pos_iff.mpr hne)
  · obtain ⟨rfl, rfl⟩ := eq_pushed_of_one_mem hsuffix hmem
    exact ⟨u, hp⟩
  · obtain rfl := honly u op (by rw [hp]; rfl) (Op.pops_of_cond hcond)
    cases hw.symm.trans hp

/-- In an open queue, where the only thread that pushes waits though there is room, a thread that has
taken a value has still to send its signal. -/
theorem exists_popped [Fintype τ] {q₀ : BlockingQueue T} {s : State τ T}
    (h : ((monitor T).system τ q₀).Reachable s) (hopen : s.shared.closed = false) {p : τ}
    (honly : OnlyPushes s p) {value : T} (hw : s.phase p = .waiting (.push value))
    (hroom : s.shared.queue.length < s.shared.capacity) :
  ∃ u value, s.phase u = .leaving (.popped (some value)) [.one .notFull]
  := by
  have hwaits : (monitor T).WaitsOn .notFull (s.phase p) := by
    rw [hw]
    rfl
  obtain ⟨u, ⟨op, r, pending, hp, hmem, hsuffix⟩ | ⟨op, b, hp, hcond⟩⟩ :=
    signal_of_waiting h hopen hwaits (Nat.sub_pos_of_lt hroom)
  · obtain ⟨⟨taken, rfl⟩, rfl⟩ := eq_popped_of_one_mem hsuffix hmem
    exact ⟨u, taken, hp⟩
  · obtain ⟨pushed, hop⟩ := Op.pushes_of_cond hcond
    obtain ⟨rfl, -⟩ := honly u op pushed (by rw [hp]; rfl) hop
    cases hw.symm.trans hp

omit [DecidableEq τ] in
/-- Only a call of `pop` returns a value, where no call has a limit of time. -/
theorem eq_pop_of_returns {op : Op T} (hop : op.Untimed) {value : Option T}
    (h : (monitor T).Returns op (.popped value)) :
  op = .pop
  := by
  obtain ⟨q, q', hc⟩ := h
  have ho := Outcome.of_commits hc
  obtain rfl | rfl | ⟨pushed, rfl⟩ := hop
  · rfl
  · cases ho with
    | takes hpop => cases hpop
    | findsNone hpop => cases hpop
  · cases ho with
    | takes hpop => cases hpop
    | findsNone hpop => cases hpop

/-- Where the only thread that pushes waits, the next step of a thread that has to send the signal of
its pop wakes it. -/
theorem wakes_of_popped {s s' : State τ T} {p u : τ} {taken value : T}
    (h : s.phase u = .leaving (.popped (some taken)) [.one .notFull]) (honly : OnlyPushes s p)
    (hw : s.phase p = .waiting (.push value)) (hs : (monitor T).Internal s u s') :
  s'.phase p = .woken (.push value) false
  := by
  apply hs.wakes h hw rfl
  intro v op hv hc
  obtain ⟨pushed, hop⟩ := Op.pushes_of_cond hc
  exact (honly v op pushed (by rw [hv]; rfl) hop).1

/-- Where the only thread that pops waits, the next step of a thread that has to send the signal of
its push wakes it. -/
theorem Notifies.wakes {s s' : State τ T} {c u : τ} (h : Notifies s u) (honly : OnlyPops s c)
    (hw : s.phase c = .waiting .pop) (hs : (monitor T).Internal s u s') :
  s'.phase c = .woken .pop false
  := by
  apply hs.wakes h hw rfl
  intro v op hv hc
  apply honly v op (by rw [hv]; rfl) (Op.pops_of_cond hc)

omit [DecidableEq τ] in
/-- A pop from a queue that is not empty does not wait. -/
theorem ready_pop_of_ne_nil {q : BlockingQueue T} (h : q.queue ≠ []) :
  (monitor T).ready .pop q = true
  := by
  simp [monitor, popReady, h]

omit [DecidableEq τ] in
/-- A pop that does not wait finds a value in an open queue. -/
theorem ne_nil_of_ready_pop {q : BlockingQueue T} (h : (monitor T).ready .pop q = true)
    (hopen : q.closed = false) :
  q.queue ≠ []
  := by
  simpa [monitor, popReady, hopen] using h

omit [DecidableEq τ] in
/-- A push that does not wait finds room in an open queue. -/
theorem room_of_ready_push {q : BlockingQueue T} {value : T}
    (h : (monitor T).ready (.push value) q = true) (hopen : q.closed = false) :
  q.queue.length < q.capacity
  := by
  simpa [monitor, pushReady, hopen] using h

/-! ### Traffic -/

omit [DecidableEq τ] in
/-- The number of values that have been accepted by the queue, or taken from it. -/
def traffic (s : State τ T) : ℕ :=
  (accepted s.log).length + (taken s.log).length

/-- A step inside a queue that leaves it open has no effect, or adds to the traffic. -/
theorem silent_or_traffic_lt {s s' : State τ T} {t : τ}
    (hops : ∀ op, (s.phase t).view = .before op → op.Untimed)
    (hopen : s'.shared.closed = false) (hs : (monitor T).Internal s t s') :
  Monitor.Silent s s' ∨ traffic s < traffic s'
  := by
  obtain hs | ⟨op, r, hs⟩ := hs.cases
  · exact Or.inl hs
  · right
    have hop := hops op hs.before
    have ho := Outcome.of_commits hs.commits
    have hbefore : s.shared.closed = false := by
      cases hc : s.shared.closed with
      | false => rfl
      | true => cases hopen.symm.trans (ho.closed_mono hc)
    rw [traffic, traffic, hs.log, accepted_snoc, taken_snoc]
    generalize s'.shared = q' at ho hopen
    cases ho with
    | accepts hpush hroom =>
        simp [acceptedValue, hpush]
        omega
    | takes hpop hq =>
        simp [takenValue]
        omega
    | refuses hpush hwhy =>
        obtain hclosed | ⟨rfl, -⟩ := hwhy
        · cases hbefore.symm.trans hclosed
        · obtain hop | hop | ⟨value, hop⟩ := hop <;> cases hop
    | findsNone hpop hq hwhy =>
        obtain hclosed | rfl := hwhy
        · cases hbefore.symm.trans hclosed
        · obtain hop | hop | ⟨value, hop⟩ := hop <;> cases hop
    | closes => cases hopen

/-- What a thread does with a queue: it calls or returns from an operation, or takes a step inside
of one, or it leaves the queue. -/
def Touches (s : State τ T) (t : τ) (s' : State τ T) : Prop :=
  (∃ x : Access T, x.Run t s s') ∨ (monitor T).Internal s t s'

/-- A queue that threads use, of which `c` pops without a limit of time, is closed and empty once
`c` has found nothing. -/
theorem emptied_of_touches {S : Type} {M : TransitionSystem S τ} {q : S → State τ T} {c : τ}
    (hinit : ∀ s, M.Init s → ((q s).phase c).view = .idle)
    (hstep : ∀ s t s', M.Reachable s → M.Step s t s' → Touches (q s) t (q s'))
    (hpop : ∀ s, M.Reachable s → ∀ op, ((q s).phase c).view = .before op → op.Pops → op = .pop)
    {s : S} (h : M.Reachable s) :
  Emptied (q s) c
  := by
  apply h.invariant
  · intro s hs hv
    rw [hinit s hs] at hv
    cases hv
  · intro s t s' hs hemptied hst
    obtain ⟨x, hx⟩ | hq := hstep s t s' hs hst
    · apply hemptied.run hx
    · apply hemptied.internal (hpop s hs) hq

omit [DecidableEq τ] in
/-- Where only one thread pushes, the sections of the others accept nothing. -/
theorem accepted_of_effect {s s' : State τ T} {t p : τ} {op : Op T} {r : Ret T}
    (honly : OnlyPushes s p) (ht : t ≠ p) (hs : Monitor.Effect (monitor T) s t op r s') :
  accepted s'.log = accepted s.log
  := by
  rw [hs.log, accepted_snoc]
  cases hvalue : acceptedValue op r with
  | none => simp
  | some pushed =>
      have hpushes : op.pushes = some pushed := by
        rcases r with (_ | _) | _ | _
        · cases hvalue
        · apply hvalue
        · cases hvalue
        · cases hvalue
      apply absurd (honly t op pushed hs.before hpushes).1 ht

/-- A step that leaves the queue open, where the only thread that pushes is before its push, leaves it
there, and the values accepted, or it is the one that accepts its value. -/
theorem before_or_accepts {s s' : State τ T} {t p : τ} {value : T} (honly : OnlyPushes s p)
    (hv : (s.phase p).view = .before (.push value)) (hopen : s'.shared.closed = false)
    (hs : Touches s t s') :
  ((s'.phase p).view = .before (.push value) ∧ accepted s'.log = accepted s.log)
    ∨ (s'.phase p).view = .after (.pushed true) ∧ accepted s'.log = accepted s.log ++ [value]
  := by
  obtain ⟨x, hx⟩ | hs := hs
  · left
    rw [hx.same.2]
    refine ⟨?_, rfl⟩
    by_cases ht : p = t
    · subst ht
      cases x with
      | none =>
          obtain rfl := hx
          apply hv
      | call op =>
          rw [hx.1] at hv
          cases hv
      | ret r =>
          rw [hx.1] at hv
          cases hv
    · rw [hx.phase_of_ne ht]
      apply hv
  · obtain hs | ⟨op, r, hs⟩ := hs.cases
    · left
      rw [hs.view, hs.log]
      exact ⟨hv, rfl⟩
    · by_cases ht : t = p
      · subst ht
        right
        have hop := hv.symm.trans hs.before
        injection hop with hop
        subst hop
        obtain ⟨accepted, rfl⟩ := eq_pushed_of_returns ⟨_, _, hs.commits⟩
        cases accepted with
        | true =>
            rw [hs.after, hs.log, accepted_snoc]
            exact ⟨rfl, rfl⟩
        | false =>
            have ho := Outcome.of_commits hs.commits
            generalize s'.shared = q' at ho hopen
            cases ho with
            | refuses hpush hwhy =>
                obtain hclosed | ⟨hop, -⟩ := hwhy
                · cases hopen.symm.trans hclosed
                · cases hop
      · left
        rw [hs.others p (Ne.symm ht)]
        exact ⟨hv, accepted_of_effect honly ht hs⟩

/-- A step where the only thread that pushes is past its push leaves the values accepted, and the
thread there, or it returns. -/
theorem after_or_idle {s s' : State τ T} {t p : τ} {r : Ret T} (honly : OnlyPushes s p)
    (hv : (s.phase p).view = .after r) (hs : Touches s t s') :
  ((s'.phase p).view = .after r ∨ s'.phase p = .idle) ∧ accepted s'.log = accepted s.log
  := by
  obtain ⟨x, hx⟩ | hs := hs
  · rw [hx.same.2]
    refine ⟨?_, rfl⟩
    by_cases ht : p = t
    · subst ht
      cases x with
      | none =>
          obtain rfl := hx
          exact Or.inl hv
      | call op =>
          rw [hx.1] at hv
          cases hv
      | ret r =>
          right
          obtain ⟨-, rfl⟩ := hx
          apply Monitor.State.setPhase_phase_self
    · rw [hx.phase_of_ne ht]
      exact Or.inl hv
  · obtain hs | ⟨op, r, hs⟩ := hs.cases
    · rw [hs.view, hs.log]
      exact ⟨Or.inl hv, rfl⟩
    · have ht : t ≠ p := by
        rintro rfl
        cases hv.symm.trans hs.before
      rw [hs.others p ht.symm]
      exact ⟨Or.inl hv, accepted_of_effect honly ht hs⟩

/-! ### Steps without traffic -/

omit [DecidableEq τ] in
/-- One for a thread that waits. -/
def patience : Monitor.Phase Cond (Op T) (Ret T) → ℕ
  | .waiting _ => 1
  | _ => 0

omit [DecidableEq τ] in
theorem patience_eq_zero {p : Monitor.Phase Cond (Op T) (Ret T)} (h : ¬ p.Waits) :
  patience p = 0
  := by
  cases p with
  | waiting op => apply absurd ⟨op, rfl⟩ h
  | _ => rfl

/-- A thread whose predicate holds, and that takes a step inside a queue without an effect, has less
to do. -/
theorem work_lt_of_silent {s s' : State τ T} {t : τ}
    (hready : ∀ op, (s.phase t).view = .before op →
      op.Untimed ∧ (monitor T).ready op s.shared = true)
    (hsilent : Monitor.Silent s s') (hs : (monitor T).Internal s t s') :
  work (s'.phase t) + patience (s'.phase t) < work (s.phase t) + patience (s.phase t)
  := by
  have hcommit : ∀ (op : Op T) (r : Ret T) (q : BlockingQueue T) (pending : List (Signal Cond)),
      s' ≠ s.commit t op r q pending := by
    rintro op r q pending rfl
    simpa [Monitor.State.commit] using congrArg List.length hsilent.log
  cases hs with
  | act hp hr => apply absurd rfl (hcommit _ _ _ _)
  | giveUp hp hr ht => apply absurd rfl (hcommit _ _ _ _)
  | @block op hp hr =>
      have hview : (s.phase t).view = .before op := by
        obtain hp | hp := hp <;> rw [hp] <;> rfl
      cases hr.symm.trans (hready op hview).2
  | @expire op r hp ht =>
      obtain rfl | rfl | ⟨value, rfl⟩ := (hready op (by rw [hp]; rfl)).1 <;> cases ht
  | wake hp =>
      rw [hp, Monitor.State.setPhase_phase_self]
      simp [work, patience]
  | @notifyOne u c r pending op hp hu hc =>
      have hut : t ≠ u := by
        rintro rfl
        cases hp.symm.trans hu
      rw [Monitor.State.setPhase_phase_of_ne _ _ hut, Monitor.State.setPhase_phase_self, hp]
      simp [work, patience]
  | notifyNone hp hu =>
      rw [hp, Monitor.State.setPhase_phase_self]
      simp [work, patience]
  | @notifyAll c r pending hp =>
      have hphase : (monitor T).wakeAll c ((s.setPhase t (.leaving r pending)).phase t)
          = .leaving r pending := by
        rw [Monitor.State.setPhase_phase_self]
        rfl
      simp only [hphase, hp, work, patience, List.length_cons]
      omega

/-- A step inside a queue that leaves the log has no effect. -/
theorem silent_of_log {s s' : State τ T} {t : τ} (hs : (monitor T).Internal s t s')
    (hlog : s'.log = s.log) :
  Monitor.Silent s s'
  := by
  obtain hs | ⟨op, r, hs⟩ := hs.cases
  · exact hs
  · rw [hs.log] at hlog
    simpa using congrArg List.length hlog

omit [DecidableEq τ] in
theorem load_of_silent {s s' : State τ T} (h : Monitor.Silent s s') (t : τ) :
  load s' t = load s t
  := by
  rw [load, load, h.shared, h.view]

/-- A call or a return leaves the thread out of the waiter sets. -/
theorem Access.Run.patience_self {s s' : State τ T} {t : τ} {x : Access T} (hx : x.Run t s s') :
  patience (s'.phase t) = patience (s.phase t)
  := by
  cases x with
  | none =>
      obtain rfl := hx
      rfl
  | call op =>
      obtain ⟨hp, rfl⟩ := hx
      rw [hp, Monitor.State.call, Monitor.State.setPhase_phase_self]
      rfl
  | ret r =>
      obtain ⟨hp, rfl⟩ := hx
      rw [hp, Monitor.State.ret, Monitor.State.setPhase_phase_self]
      rfl

/-- A signal stays to be sent while other threads take steps. -/
theorem Notifies.of_touches {s s' : State τ T} {t u : τ} (h : Notifies s u) (hu : u ≠ t)
    (hs : Touches s t s') :
  Notifies s' u
  := by
  rw [Notifies] at h ⊢
  obtain ⟨x, hx⟩ | hs := hs
  · rw [hx.phase_of_ne hu, h]
  · rw [hs.phase_of_ne hu, h]
    rintro ⟨op, hop⟩
    cases h.symm.trans hop

/-- A step of another thread inside a queue leaves the work of a thread, and wakes it at most. -/
theorem work_of_other {s s' : State τ T} {t u : τ} (hu : u ≠ t)
    (hs : (monitor T).Internal s t s') :
  work (s'.phase u) = work (s.phase u)
    ∧ (s'.phase u = s.phase u ∨ patience (s'.phase u) < patience (s.phase u))
  := by
  by_cases hw : (s.phase u).Waits
  · obtain ⟨op, hp⟩ := hw
    obtain hsame | hwoken := hs.phase_of_waiting hu hp
    · rw [hsame]
      exact ⟨rfl, Or.inl rfl⟩
    · rw [hwoken, hp]
      exact ⟨rfl, Or.inr Nat.one_pos⟩
  · rw [hs.phase_of_ne hu hw]
    exact ⟨rfl, Or.inl rfl⟩

end BlockingQueue
