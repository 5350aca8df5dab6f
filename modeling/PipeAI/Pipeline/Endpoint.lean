import PipeAI.Pipeline.BlockingQueue

/-!
# Queues between two threads

Where only one thread pops from a queue, the values taken from it are the ones that its calls
have returned, followed by the one that its present call is about to return (`Consumed`).
Where only one thread pushes to a queue, by `push`, the values accepted are the ones it has
called `push` with, less the present one, until the queue is closed; from then on no more
values are accepted (`Offered`).

The steps inside the queue keep both; the calls and returns of the thread (`Access`) change
them as the values it has received, or offered, change.
-/

namespace BlockingQueue

variable {T τ : Type}

/-! ### Consumers -/

/-- The value a call has taken, and has still to return. -/
def inHand : Monitor.View (Op T) (Ret T) → List T
  | .idle => []
  | .before _ => []
  | .after r => (takenValue r).toList

@[simp]
theorem inHand_idle :
  inHand (.idle : Monitor.View (Op T) (Ret T)) = []
  := rfl

@[simp]
theorem inHand_before (op : Op T) :
  inHand (.before op) = []
  := rfl

@[simp]
theorem inHand_after (r : Ret T) :
  inHand (.after r) = (takenValue r).toList
  := rfl

/-- The values taken are those in `L`, followed by the one in the hand of the thread `c`. -/
def Consumed (s : State τ T) (c : τ) (L : List T) : Prop :=
  taken s.log = L ++ inHand (s.phase c).view

/-- Only the thread `c` pops. -/
def OnlyPops (s : State τ T) (c : τ) : Prop :=
  ∀ t op, (s.phase t).view = .before op → op.Pops → t = c

variable [DecidableEq τ]

/-- The steps inside the queue keep the values its consumer has received. -/
theorem Consumed.internal {s s' : State τ T} {c t : τ} {L : List T} (h : Consumed s c L)
    (hc : OnlyPops s c) (hs : (monitor T).Internal s t s') :
  Consumed s' c L
  := by
  obtain hs | ⟨op, r, hs⟩ := hs.cases
  · rw [Consumed, hs.log, hs.view]
    apply h
  · rw [Consumed, hs.log, taken_snoc, h]
    by_cases ht : t = c
    · subst ht
      rw [hs.before, hs.after, inHand_before, inHand_after, List.append_nil]
    · have hnone : takenValue r = none := by
        have ho := Outcome.of_commits hs.commits
        generalize s'.shared = q' at ho
        cases ho with
        | takes hop hq => apply absurd (hc t op hs.before hop) ht
        | _ => rfl
      rw [hs.others c (Ne.symm ht), hnone, Option.toList_none, List.append_nil]

/-- A thread outside of the queue calls an operation. -/
theorem Consumed.call {s : State τ T} {c t : τ} {L : List T} (h : Consumed s c L)
    (hp : s.phase t = .idle) (op : Op T) :
  Consumed (s.call t op) c L
  := by
  by_cases ht : t = c
  · subst ht
    rw [Consumed, hp] at h
    rw [Consumed, Monitor.State.call, Monitor.State.setPhase_phase_self]
    apply h
  · rw [Consumed, Monitor.State.call, Monitor.State.setPhase_phase_of_ne _ _ (Ne.symm ht)]
    apply h

/-- The consumer receives the value that its call returns. -/
theorem Consumed.ret {s : State τ T} {c : τ} {L : List T} (h : Consumed s c L) {r : Ret T}
    {pending : List (Signal Cond)} (hp : s.phase c = .leaving r pending) :
  Consumed (s.ret c) c (L ++ (takenValue r).toList)
  := by
  rw [Consumed, hp] at h
  rw [Consumed, Monitor.State.ret, Monitor.State.setPhase_phase_self]
  simpa [inHand] using h

/-- Another thread returns from its call. -/
theorem Consumed.ret_of_ne {s : State τ T} {c t : τ} {L : List T} (h : Consumed s c L)
    (ht : c ≠ t) :
  Consumed (s.ret t) c L
  := by
  rw [Consumed, Monitor.State.ret, Monitor.State.setPhase_phase_of_ne _ _ ht]
  apply h

/-! ### Producers -/

/-- The value a call offers to the queue, and that has still to be accepted or refused. -/
def onOffer : Monitor.View (Op T) (Ret T) → List T
  | .idle => []
  | .before op => op.pushes.toList
  | .after _ => []

@[simp]
theorem onOffer_idle :
  onOffer (.idle : Monitor.View (Op T) (Ret T)) = []
  := rfl

@[simp]
theorem onOffer_before (op : Op T) :
  onOffer (.before op) = op.pushes.toList
  := rfl

@[simp]
theorem onOffer_after (r : Ret T) :
  onOffer (.after r) = []
  := rfl

/-- An operation that pops does not push. -/
theorem Op.pushes_of_pops {op : Op T} (h : op.Pops) :
  op.pushes = none
  := by
  cases op with
  | pop => rfl
  | popFor => rfl
  | _ => cases h

/-- The thread `p` has offered the values in `L` one after the other; those accepted come first,
and as long as the queue is open, all have been accepted but the one on offer. -/
structure Offered (s : State τ T) (p : τ) (L : List T) : Prop where
  isPrefix : accepted s.log <+: L
  complete : s.shared.closed = false → L = accepted s.log ++ onOffer (s.phase p).view

/-- Only the thread `p` pushes, by `push`. -/
def OnlyPushes (s : State τ T) (p : τ) : Prop :=
  ∀ t op value, (s.phase t).view = .before op → op.pushes = some value → t = p ∧ op = .push value

/-- The steps inside the queue keep the values its producer has offered. -/
theorem Offered.internal {s s' : State τ T} {p t : τ} {L : List T} (h : Offered s p L)
    (hp : OnlyPushes s p) (hs : (monitor T).Internal s t s') :
  Offered s' p L
  := by
  obtain hs | ⟨op, r, hs⟩ := hs.cases
  · constructor
    · rw [hs.log]
      apply h.isPrefix
    · rw [hs.log, hs.shared, hs.view]
      apply h.complete
  · have hlog : accepted s'.log = accepted s.log ++ (acceptedValue op r).toList := by
      rw [hs.log, accepted_snoc]
    have hview : ∀ value, op.pushes = some value →
        onOffer (s.phase p).view = [value] ∧ onOffer (s'.phase p).view = [] := by
      intro value hop
      obtain ⟨rfl, rfl⟩ := hp t op value hs.before hop
      rw [hs.before, hs.after]
      exact ⟨rfl, rfl⟩
    have hsame : op.pushes = none → onOffer (s'.phase p).view = onOffer (s.phase p).view := by
      intro hop
      by_cases ht : p = t
      · subst ht
        rw [hs.before, hs.after, onOffer_before, onOffer_after, hop, Option.toList_none]
      · rw [hs.others p ht]
    have hkeep : acceptedValue op r = none →
        (s'.shared.closed = false → s.shared.closed = false ∧ op.pushes = none) →
        Offered s' p L := by
      intro hnone hopen
      rw [hnone, Option.toList_none, List.append_nil] at hlog
      constructor
      · rw [hlog]
        apply h.isPrefix
      · intro hc
        obtain ⟨hc, hop⟩ := hopen hc
        rw [hlog, hsame hop, h.complete hc]
    have ho := Outcome.of_commits hs.commits
    generalize hq : s'.shared = q' at ho hkeep
    cases ho with
    | @accepts op value hop hopen hroom =>
        obtain ⟨hbefore, hafter⟩ := hview value hop
        have hacc : acceptedValue op (.pushed true) = some value := hop
        have hL : accepted s'.log = L := by
          rw [hlog, hacc, h.complete hopen, hbefore, Option.toList_some]
        constructor
        · rw [hL]
        · intro _
          rw [hL, hafter, List.append_nil]
    | refuses hop hwhy =>
        apply hkeep rfl
        intro hopen
        obtain hclosed | ⟨rfl, -⟩ := hwhy
        · rw [hclosed] at hopen
          cases hopen
        · obtain ⟨-, hpush⟩ := hp t _ _ hs.before hop
          cases hpush
    | takes hop hqueue =>
        apply hkeep rfl
        intro hopen
        exact ⟨hopen, Op.pushes_of_pops hop⟩
    | findsNone hop hqueue hwhy =>
        apply hkeep rfl
        intro hopen
        exact ⟨hopen, Op.pushes_of_pops hop⟩
    | closes =>
        apply hkeep rfl
        intro hopen
        cases hopen

/-- The producer offers a value. -/
theorem Offered.push {s : State τ T} {p : τ} {L : List T} (h : Offered s p L)
    (hp : s.phase p = .idle) (value : T) :
  Offered (s.call p (.push value)) p (L ++ [value])
  := by
  constructor
  · apply h.isPrefix.trans (List.prefix_append _ _)
  · intro hopen
    have hL := h.complete hopen
    rw [hp] at hL
    rw [Monitor.State.call, Monitor.State.setPhase_phase_self]
    simpa [Op.pushes] using hL

/-- A thread outside of the queue calls an operation that does not push. -/
theorem Offered.call {s : State τ T} {p t : τ} {L : List T} (h : Offered s p L)
    (hp : s.phase t = .idle) {op : Op T} (hop : op.pushes = none) :
  Offered (s.call t op) p L
  := by
  use h.isPrefix
  intro hopen
  have hL := h.complete hopen
  by_cases ht : t = p
  · subst ht
    rw [hp] at hL
    rw [Monitor.State.call, Monitor.State.setPhase_phase_self]
    simpa [hop] using hL
  · rw [Monitor.State.call, Monitor.State.setPhase_phase_of_ne _ _ (Ne.symm ht)]
    apply hL

/-- A thread returns from its call. -/
theorem Offered.ret {s : State τ T} {p t : τ} {L : List T} (h : Offered s p L) {r : Ret T}
    {pending : List (Signal Cond)} (hp : s.phase t = .leaving r pending) :
  Offered (s.ret t) p L
  := by
  use h.isPrefix
  intro hopen
  have hL := h.complete hopen
  by_cases ht : t = p
  · subst ht
    rw [hp] at hL
    rw [Monitor.State.ret, Monitor.State.setPhase_phase_self]
    apply hL
  · rw [Monitor.State.ret, Monitor.State.setPhase_phase_of_ne _ _ (Ne.symm ht)]
    apply hL

/-! ### Accesses -/

/-- What a thread does with a queue outside of its sections: nothing, or it calls or returns
from an operation. -/
inductive Access (T : Type) where
  | none
  | call (op : Op T)
  | ret (r : Ret T)

/-- The access `x` of the thread `t` leads from `s` to `s'`. -/
def Access.Run (x : Access T) (t : τ) (s s' : State τ T) : Prop :=
  match x with
  | .none => s' = s
  | .call op => s.phase t = .idle ∧ s' = s.call t op
  | .ret r => s.phase t = .leaving r [] ∧ s' = s.ret t

/-- The access of another thread keeps the values the consumer has received. -/
theorem Consumed.run_of_ne {s s' : State τ T} {c t : τ} {L : List T} (h : Consumed s c L)
    (ht : t ≠ c) {x : Access T} (hx : x.Run t s s') :
  Consumed s' c L
  := by
  cases x with
  | none =>
      obtain rfl := hx
      apply h
  | call op =>
      obtain ⟨hp, rfl⟩ := hx
      apply h.call hp
  | ret r =>
      obtain ⟨-, rfl⟩ := hx
      apply h.ret_of_ne ht.symm

/-- An access that is no push keeps the values the producer has offered. -/
theorem Offered.run {s s' : State τ T} {p t : τ} {L : List T} (h : Offered s p L)
    {x : Access T} (hx : x.Run t s s') (hop : ∀ op, x = .call op → op.pushes = none) :
  Offered s' p L
  := by
  cases x with
  | none =>
      obtain rfl := hx
      apply h
  | call op =>
      obtain ⟨hp, rfl⟩ := hx
      apply h.call hp (hop op rfl)
  | ret r =>
      obtain ⟨hp, rfl⟩ := hx
      apply h.ret hp

/-- An access leaves the contents and the log of the queue. -/
theorem Access.Run.same {s s' : State τ T} {t : τ} {x : Access T} (hx : x.Run t s s') :
  s'.shared = s.shared ∧ s'.log = s.log
  := by
  cases x with
  | none =>
      obtain rfl := hx
      exact ⟨rfl, rfl⟩
  | call op =>
      obtain ⟨-, rfl⟩ := hx
      exact ⟨rfl, rfl⟩
  | ret r =>
      obtain ⟨-, rfl⟩ := hx
      exact ⟨rfl, rfl⟩

/-- An access of a thread leaves the phases of the others. -/
theorem Access.Run.phase_of_ne {s s' : State τ T} {t u : τ} {x : Access T} (hx : x.Run t s s')
    (hu : u ≠ t) :
  s'.phase u = s.phase u
  := by
  cases x with
  | none =>
      obtain rfl := hx
      rfl
  | call op =>
      obtain ⟨-, rfl⟩ := hx
      apply Monitor.State.setPhase_phase_of_ne _ _ hu
  | ret r =>
      obtain ⟨-, rfl⟩ := hx
      apply Monitor.State.setPhase_phase_of_ne _ _ hu

/-! ### Closed queues -/

/-- A closed queue stays closed and accepts nothing more. -/
theorem closed_internal {s s' : State τ T} {t : τ} (h : s.shared.closed = true)
    (hs : (monitor T).Internal s t s') :
  s'.shared.closed = true ∧ accepted s'.log = accepted s.log
  := by
  obtain hs | ⟨op, r, hs⟩ := hs.cases
  · rw [hs.shared, hs.log]
    exact ⟨h, rfl⟩
  · have ho := Outcome.of_commits hs.commits
    use ho.closed_mono h
    rw [hs.log, accepted_snoc]
    generalize s'.shared = q' at ho
    cases ho with
    | accepts hop hopen hroom =>
        rw [h] at hopen
        cases hopen
    | _ => simp [acceptedValue]

/-- The step that closes a queue is the section of a call of `close`, and accepts nothing. -/
theorem closes_internal {s s' : State τ T} {t : τ} (h : s.shared.closed = false)
    (h' : s'.shared.closed = true) (hs : (monitor T).Internal s t s') :
  (s.phase t).view = .before .close ∧ accepted s'.log = accepted s.log
  := by
  obtain hs | ⟨op, r, hs⟩ := hs.cases
  · rw [hs.shared, h] at h'
    cases h'
  · have ho := Outcome.of_commits hs.commits
    rw [hs.log, accepted_snoc, hs.before]
    generalize s'.shared = q' at ho h'
    cases ho with
    | closes => simp [acceptedValue]
    | _ =>
        rw [h] at h'
        cases h'

/-- A queue is closed once the section of a call of `close` has run. -/
theorem closed_of_after {q₀ : BlockingQueue T} {s : State τ T}
    (h : ((monitor T).system τ q₀).Reachable s) :
  ∀ t, (s.phase t).view = .after .closed → s.shared.closed = true
  := by
  apply h.invariant
  · rintro s rfl t hv
    cases hv
  · intro s u s' _ ih hs t hv
    cases hs with
    | call op hp =>
        by_cases ht : t = u
        · subst ht
          rw [Monitor.State.call, Monitor.State.setPhase_phase_self] at hv
          cases hv
        · rw [Monitor.State.call, Monitor.State.setPhase_phase_of_ne _ _ ht] at hv
          apply ih t hv
    | ret hp =>
        by_cases ht : t = u
        · subst ht
          rw [Monitor.State.ret, Monitor.State.setPhase_phase_self] at hv
          cases hv
        · rw [Monitor.State.ret, Monitor.State.setPhase_phase_of_ne _ _ ht] at hv
          apply ih t hv
    | internal hs =>
        obtain he | ⟨op, r, he⟩ := hs.cases
        · rw [he.view] at hv
          rw [he.shared]
          apply ih t hv
        · by_cases ht : t = u
          · subst ht
            rw [he.after] at hv
            cases hv
            have ho := Outcome.of_commits he.commits
            generalize s'.shared = q' at ho
            cases ho with
            | closes => rfl
          · rw [he.others t ht] at hv
            apply (closed_internal (ih t hv) hs).1

/-- No step that leaves a queue closed accepts a value. -/
theorem accepted_of_closed {s s' : State τ T} {t : τ} (hs : (monitor T).Internal s t s')
    (h' : s'.shared.closed = true) :
  accepted s'.log = accepted s.log
  := by
  cases h : s.shared.closed with
  | true => apply (closed_internal h hs).2
  | false => apply (closes_internal h h' hs).2

omit [DecidableEq τ] in
/-- When the thread `c` has found nothing to pop, the queue is closed and empty. -/
def Emptied (s : State τ T) (c : τ) : Prop :=
  (s.phase c).view = .after (.popped none) → s.shared.closed = true ∧ s.shared.queue = []

/-- The steps inside the queue keep it closed and empty for a thread that has found nothing. -/
theorem Emptied.internal {s s' : State τ T} {c t : τ} (h : Emptied s c)
    (hpop : ∀ op, (s.phase c).view = .before op → op.Pops → op = .pop)
    (hs : (monitor T).Internal s t s') :
  Emptied s' c
  := by
  intro hv
  obtain hs | ⟨op, r, hs⟩ := hs.cases
  · rw [hs.view] at hv
    rw [hs.shared]
    apply h hv
  · have ho := Outcome.of_commits hs.commits
    by_cases ht : c = t
    · subst ht
      rw [hs.after] at hv
      cases hv
      generalize s'.shared = q' at ho
      cases ho with
      | findsNone hop hq hwhy =>
          obtain rfl := hpop op hs.before hop
          obtain hclosed | hop := hwhy
          · exact ⟨hclosed, hq⟩
          · cases hop
    · rw [hs.others c ht] at hv
      obtain ⟨hclosed, hempty⟩ := h hv
      use ho.closed_mono hclosed
      generalize s'.shared = q' at ho
      cases ho with
      | accepts hop hopen hroom =>
          rw [hclosed] at hopen
          cases hopen
      | takes hop hq =>
          rw [hempty] at hq
          cases hq
      | _ => apply hempty

/-- Calls and returns keep the queue closed and empty for a thread that has found nothing. -/
theorem Emptied.run {s s' : State τ T} {c t : τ} (h : Emptied s c) {x : Access T}
    (hx : x.Run t s s') :
  Emptied s' c
  := by
  intro hv
  cases x with
  | none =>
      obtain rfl := hx
      apply h hv
  | call op =>
      obtain ⟨-, rfl⟩ := hx
      by_cases ht : c = t
      · subst ht
        rw [Monitor.State.call, Monitor.State.setPhase_phase_self] at hv
        cases hv
      · rw [Monitor.State.call, Monitor.State.setPhase_phase_of_ne _ _ ht] at hv
        apply h hv
  | ret r =>
      obtain ⟨-, rfl⟩ := hx
      by_cases ht : c = t
      · subst ht
        rw [Monitor.State.ret, Monitor.State.setPhase_phase_self] at hv
        cases hv
      · rw [Monitor.State.ret, Monitor.State.setPhase_phase_of_ne _ _ ht] at hv
        apply h hv

end BlockingQueue
