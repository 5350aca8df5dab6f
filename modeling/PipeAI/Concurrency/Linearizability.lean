import PipeAI.Concurrency.Monitor

/-!
# Linearizability

A history records when the threads call the operations of a component, and when the calls return.
It is linearizable when its calls can be put in an order in which they are what the component does
sequentially: calls that have returned are in it with the values they returned, each thread has
its calls in the order in which it made them, and a call that had returned before another one was
made comes before it (`Linearizes`).

Every history of a monitor is linearizable (`Monitor.linearizes_of_reachable`): its calls take effect
in the sections under the mutex.
-/

universe u v w x y

variable {τ : Type y} {Op : Type w} {Ret : Type x}

/-- What a history records: a thread calls an operation, or the call of a thread returns. -/
inductive Event (τ : Type y) (Op : Type w) (Ret : Type x) where
  | call (t : τ) (op : Op)
  | ret (t : τ) (r : Ret)

section Histories

variable [DecidableEq τ]

/-- The operation that the thread calls. -/
def Event.callOf (t : τ) : Event τ Op Ret → Option Op
  | .call u op => if u = t then some op else none
  | .ret _ _ => none

/-- The value that the call of the thread returns. -/
def Event.returnOf (t : τ) : Event τ Op Ret → Option Ret
  | .call _ _ => none
  | .ret u r => if u = t then some r else none

/-- The operations that a thread has called, in order. -/
def callsOf (t : τ) (H : List (Event τ Op Ret)) : List Op :=
  H.filterMap (Event.callOf t)

/-- The values that the calls of a thread have returned, in order. -/
def returnsOf (t : τ) (H : List (Event τ Op Ret)) : List Ret :=
  H.filterMap (Event.returnOf t)

/-- The entries of a thread. -/
def entriesOf (t : τ) (L : List (τ × Op × Ret)) : List (Op × Ret) :=
  L.filterMap (fun e => if e.1 = t then some e.2 else none)

/-- The list `L` is a legal order of the calls of the history `H`. -/
structure Linearizes (Legal : List (τ × Op × Ret) → Prop) (H : List (Event τ Op Ret))
    (L : List (τ × Op × Ret)) : Prop where
  /-- The calls are what the component does sequentially. -/
  legal : Legal L
  /-- Only calls that have been made are listed, those of a thread in their order. -/
  calls : ∀ t, (entriesOf t L).map Prod.fst <+: callsOf t H
  /-- All calls that have returned are listed, with the values they returned. -/
  returns : ∀ t, returnsOf t H <+: (entriesOf t L).map Prod.snd
  /-- If a call has returned, and another one has not been made yet, then it is listed before it. -/
  order : ∀ H₁ H₂, H = H₁ ++ H₂ → ∀ L₁ L₂ L₃ t u a b, L = L₁ ++ (t, a) :: L₂ ++ (u, b) :: L₃ →
    ¬ ((entriesOf u (L₁ ++ (t, a) :: L₂)).length < (returnsOf u H₁).length
      ∧ (callsOf t H₁).length ≤ (entriesOf t L₁).length)

@[simp]
theorem callsOf_append (t : τ) (H H' : List (Event τ Op Ret)) :
  callsOf t (H ++ H') = callsOf t H ++ callsOf t H'
  := List.filterMap_append ..

@[simp]
theorem returnsOf_append (t : τ) (H H' : List (Event τ Op Ret)) :
  returnsOf t (H ++ H') = returnsOf t H ++ returnsOf t H'
  := List.filterMap_append ..

@[simp]
theorem entriesOf_append (t : τ) (L L' : List (τ × Op × Ret)) :
  entriesOf t (L ++ L') = entriesOf t L ++ entriesOf t L'
  := List.filterMap_append ..

@[simp]
theorem callsOf_call (t : τ) (op : Op) :
  callsOf t ([.call t op] : List (Event τ Op Ret)) = [op]
  := by
  simp [callsOf, Event.callOf]

@[simp]
theorem returnsOf_call (t u : τ) (op : Op) :
  returnsOf t ([.call u op] : List (Event τ Op Ret)) = []
  := rfl

@[simp]
theorem callsOf_ret (t u : τ) (r : Ret) :
  callsOf t ([.ret u r] : List (Event τ Op Ret)) = []
  := rfl

@[simp]
theorem returnsOf_ret (t : τ) (r : Ret) :
  returnsOf t ([.ret t r] : List (Event τ Op Ret)) = [r]
  := by
  simp [returnsOf, Event.returnOf]

@[simp]
theorem entriesOf_self (t : τ) (a : Op × Ret) :
  entriesOf t [(t, a)] = [a]
  := by
  simp [entriesOf]

/-- The entries of a prefix are not more. -/
theorem length_entriesOf_le {t : τ} {L L' : List (τ × Op × Ret)} (h : L <+: L') :
  (entriesOf t L).length ≤ (entriesOf t L').length
  := by
  obtain ⟨L'', rfl⟩ := h
  rw [entriesOf_append, List.length_append]
  omega

/-- At each time of the history, a first part of the list has the calls that have returned, and none
that have not been made. -/
def Cut (H : List (Event τ Op Ret)) (L : List (τ × Op × Ret)) : Prop :=
  ∀ H₁ H₂, H = H₁ ++ H₂ → ∃ L₁, L₁ <+: L ∧ ∀ t,
    (returnsOf t H₁).length ≤ (entriesOf t L₁).length
      ∧ (entriesOf t L₁).length ≤ (callsOf t H₁).length

/-- A list that can be cut at all times respects the order of the history. -/
theorem Cut.order {H : List (Event τ Op Ret)} {L : List (τ × Op × Ret)} (h : Cut H L)
    (H₁ H₂ : List (Event τ Op Ret)) (hH : H = H₁ ++ H₂) (L₁ L₂ L₃ : List (τ × Op × Ret)) (t u : τ)
    (a b : Op × Ret) (hL : L = L₁ ++ (t, a) :: L₂ ++ (u, b) :: L₃) :
  ¬ ((entriesOf u (L₁ ++ (t, a) :: L₂)).length < (returnsOf u H₁).length
      ∧ (callsOf t H₁).length ≤ (entriesOf t L₁).length)
  := by
  rintro ⟨hreturned, hnot⟩
  obtain ⟨K, hK, hcounts⟩ := h H₁ H₂ hH
  have hprefix : L₁ ++ (t, a) :: L₂ <+: L := by
    rw [hL]
    apply List.prefix_append
  obtain hle | hle := List.prefix_or_prefix_of_prefix hK hprefix
  · have := (hcounts u).1
    have := length_entriesOf_le (t := u) hle
    omega
  · have hentry : L₁ ++ [(t, a)] <+: K := by
      rw [List.append_cons] at hle
      apply (List.prefix_append _ _).trans hle
    have := (hcounts t).2
    have hlt := length_entriesOf_le (t := t) hentry
    rw [entriesOf_append, entriesOf_self, List.length_append, List.length_singleton] at hlt
    omega

/-- A list that could be cut can be cut when it gets longer. -/
theorem Cut.of_prefix {H : List (Event τ Op Ret)} {L L' : List (τ × Op × Ret)} (h : Cut H L)
    (hL : L <+: L') :
  Cut H L'
  := by
  intro H₁ H₂ hH
  obtain ⟨K, hK, hcounts⟩ := h H₁ H₂ hH
  exact ⟨K, hK.trans hL, hcounts⟩

/-- A list that could be cut can be cut after one more event, if the whole list is a cut then. -/
theorem Cut.snoc {H : List (Event τ Op Ret)} {L : List (τ × Op × Ret)} (h : Cut H L)
    (e : Event τ Op Ret)
    (he : ∀ t, (returnsOf t (H ++ [e])).length ≤ (entriesOf t L).length
      ∧ (entriesOf t L).length ≤ (callsOf t (H ++ [e])).length) :
  Cut (H ++ [e]) L
  := by
  intro H₁ H₂ hH
  induction H₂ using List.reverseRecOn with
  | nil =>
      rw [List.append_nil] at hH
      subst hH
      exact ⟨L, List.prefix_refl L, he⟩
  | append_singleton H₂ e' _ =>
      rw [← List.append_assoc] at hH
      obtain ⟨hH, -⟩ := List.append_inj' hH rfl
      apply h H₁ H₂ hH

end Histories

namespace Monitor

variable {S : Type u} {Cond : Type v} [DecidableEq τ] [DecidableEq Cond]

/-- The steps of the threads that use a monitor, with the history of their calls. -/
inductive RecordedStep (M : Monitor S Cond Op Ret) :
    State S Cond Op Ret τ × List (Event τ Op Ret) → τ →
      State S Cond Op Ret τ × List (Event τ Op Ret) → Prop where
  | call {s : State S Cond Op Ret τ} {H : List (Event τ Op Ret)} {t : τ} (op : Op)
      (hp : s.phase t = .idle) : RecordedStep M (s, H) t (s.call t op, H ++ [.call t op])
  | internal {s s' : State S Cond Op Ret τ} {H : List (Event τ Op Ret)} {t : τ}
      (h : M.Internal s t s') : RecordedStep M (s, H) t (s', H)
  | ret {s : State S Cond Op Ret τ} {H : List (Event τ Op Ret)} {t : τ} {r : Ret}
      (hp : s.phase t = .leaving r []) : RecordedStep M (s, H) t (s.ret t, H ++ [.ret t r])

/-- The threads `τ` using the monitor from the shared state `σ`, with the history of their calls. -/
def recorded (M : Monitor S Cond Op Ret) (τ : Type y) [DecidableEq τ] (σ : S) :
    TransitionSystem (State S Cond Op Ret τ × List (Event τ Op Ret)) τ where
  Init s := s = (initial Cond Op Ret τ σ, [])
  Step := M.RecordedStep

/-- The history leaves the runs of the monitor as they are. -/
def forget (M : Monitor S Cond Op Ret) (σ : S) :
    TransitionSystem.Projection (M.recorded τ σ) (M.system τ σ) where
  map := Prod.fst
  init := by
    rintro s rfl
    rfl
  step := by
    rintro s t s' - hs
    right
    use t
    cases hs with
    | call op hp => apply Step.call op hp
    | internal h => apply Step.internal h
    | ret hp => apply Step.ret hp

/-- The calls and returns of a thread are its entries in the log, and those of its call in progress. -/
def Agrees (H : List (Event τ Op Ret)) (L : List (τ × Op × Ret)) (t : τ) :
    View Op Ret → Prop
  | .idle => callsOf t H = (entriesOf t L).map Prod.fst ∧ returnsOf t H = (entriesOf t L).map Prod.snd
  | .before op => callsOf t H = (entriesOf t L).map Prod.fst ++ [op]
      ∧ returnsOf t H = (entriesOf t L).map Prod.snd
  | .after r => callsOf t H = (entriesOf t L).map Prod.fst
      ∧ (entriesOf t L).map Prod.snd = returnsOf t H ++ [r]

/-- The thread that has been called or has returned last makes no difference to the others. -/
theorem Agrees.event {H : List (Event τ Op Ret)} {L : List (τ × Op × Ret)} {u : τ}
    {v : View Op Ret} (h : Agrees H L u v) {e : Event τ Op Ret} (hcall : e.callOf u = none)
    (hret : e.returnOf u = none) :
  Agrees (H ++ [e]) L u v
  := by
  have hcalls : callsOf u (H ++ [e]) = callsOf u H := by
    simp [callsOf, hcall]
  have hreturns : returnsOf u (H ++ [e]) = returnsOf u H := by
    simp [returnsOf, hret]
  cases v <;> simpa only [Agrees, hcalls, hreturns] using h

/-- The counts of a thread that agrees. -/
theorem Agrees.counts {H : List (Event τ Op Ret)} {L : List (τ × Op × Ret)} {t : τ}
    {v : View Op Ret} (h : Agrees H L t v) :
  (returnsOf t H).length ≤ (entriesOf t L).length ∧ (entriesOf t L).length ≤ (callsOf t H).length
  := by
  cases v with
  | idle =>
      obtain ⟨hcalls, hreturns⟩ := h
      simp [hcalls, hreturns]
  | before op =>
      obtain ⟨hcalls, hreturns⟩ := h
      simp [hcalls, hreturns]
  | after r =>
      obtain ⟨hcalls, hreturns⟩ := h
      have hreturns := congrArg List.length hreturns
      simp only [List.length_map, List.length_append, List.length_singleton] at hreturns
      simp only [hcalls, List.length_map]
      omega

/-- The entries of a thread that agrees are calls it has made, and all that have returned. -/
theorem Agrees.listed {H : List (Event τ Op Ret)} {L : List (τ × Op × Ret)} {t : τ}
    {v : View Op Ret} (h : Agrees H L t v) :
  (entriesOf t L).map Prod.fst <+: callsOf t H ∧ returnsOf t H <+: (entriesOf t L).map Prod.snd
  := by
  cases v with
  | idle =>
      obtain ⟨hcalls, hreturns⟩ := h
      rw [hcalls, hreturns]
      exact ⟨List.prefix_refl _, List.prefix_refl _⟩
  | before op =>
      obtain ⟨hcalls, hreturns⟩ := h
      rw [hcalls, hreturns]
      exact ⟨List.prefix_append _ _, List.prefix_refl _⟩
  | after r =>
      obtain ⟨hcalls, hreturns⟩ := h
      rw [hcalls, hreturns]
      exact ⟨List.prefix_refl _, List.prefix_append _ _⟩

/-- What holds of a history and a log: every thread agrees, and the log can be cut at all times. -/
structure Keeps (s : State S Cond Op Ret τ) (H : List (Event τ Op Ret)) : Prop where
  agrees : ∀ t, Agrees H s.log t (s.phase t).view
  cut : Cut H s.log

omit [DecidableEq Cond] in
/-- A call is recorded. -/
theorem Keeps.call {s : State S Cond Op Ret τ} {H : List (Event τ Op Ret)} (h : Keeps s H) {t : τ}
    (op : Op) (hp : s.phase t = .idle) :
  Keeps (s.call t op) (H ++ [.call t op])
  := by
  have hagrees : ∀ u, Agrees (H ++ [.call t op]) s.log u ((s.call t op).phase u).view := by
    intro u
    by_cases hu : u = t
    · subst hu
      obtain ⟨hcalls, hreturns⟩ : Agrees H s.log u .idle := by
        simpa [hp] using h.agrees u
      rw [State.call, State.setPhase_phase_self, Phase.view_entering]
      constructor
      · simp [hcalls]
      · simp [hreturns]
    · rw [State.call, State.setPhase_phase_of_ne _ _ hu]
      apply (h.agrees u).event
      · simp [Event.callOf, Ne.symm hu]
      · rfl
  exact ⟨hagrees, h.cut.snoc _ (fun u => (hagrees u).counts)⟩

omit [DecidableEq Cond] in
/-- A return is recorded. -/
theorem Keeps.ret {s : State S Cond Op Ret τ} {H : List (Event τ Op Ret)} (h : Keeps s H) {t : τ}
    {r : Ret} (hp : s.phase t = .leaving r []) :
  Keeps (s.ret t) (H ++ [.ret t r])
  := by
  have hagrees : ∀ u, Agrees (H ++ [.ret t r]) s.log u ((s.ret t).phase u).view := by
    intro u
    by_cases hu : u = t
    · subst hu
      obtain ⟨hcalls, hreturns⟩ : Agrees H s.log u (.after r) := by
        simpa [hp] using h.agrees u
      rw [State.ret, State.setPhase_phase_self, Phase.view_idle]
      constructor
      · simp [hcalls]
      · simp [hreturns]
    · rw [State.ret, State.setPhase_phase_of_ne _ _ hu]
      apply (h.agrees u).event
      · rfl
      · simp [Event.returnOf, Ne.symm hu]
  exact ⟨hagrees, h.cut.snoc _ (fun u => (hagrees u).counts)⟩

/-- A step inside the monitor has no effect, or adds an entry to the log. -/
theorem Keeps.internal {M : Monitor S Cond Op Ret} {s s' : State S Cond Op Ret τ}
    {H : List (Event τ Op Ret)} (h : Keeps s H) {t : τ} (hs : M.Internal s t s') :
  Keeps s' H
  := by
  obtain hsilent | ⟨op, r, heffect⟩ := hs.cases
  · constructor
    · intro u
      rw [hsilent.log, hsilent.view]
      apply h.agrees
    · rw [hsilent.log]
      apply h.cut
  · constructor
    · intro u
      rw [heffect.log]
      by_cases hu : u = t
      · subst hu
        obtain ⟨hcalls, hreturns⟩ : Agrees H s.log u (.before op) := by
          rw [← heffect.before]
          apply h.agrees
        rw [heffect.after]
        constructor
        · simp [hcalls]
        · simp [hreturns]
      · rw [heffect.others u hu]
        have hentries : entriesOf u (s.log ++ [(t, op, r)]) = entriesOf u s.log := by
          simp [entriesOf, Ne.symm hu]
        have hu := h.agrees u
        cases hv : (s.phase u).view <;> rw [hv] at hu <;> simpa only [Agrees, hentries] using hu
    · rw [heffect.log]
      apply h.cut.of_prefix (List.prefix_append _ _)

/-- In every run of a monitor, the log is a legal order of the calls of the history. -/
theorem linearizes_of_reachable {M : Monitor S Cond Op Ret} {σ₀ : S}
    {s : State S Cond Op Ret τ} {H : List (Event τ Op Ret)}
    (h : (M.recorded τ σ₀).Reachable (s, H)) :
  Linearizes (fun L => ∃ σ, M.Sequential σ₀ L σ) H s.log
  := by
  have hkeeps : Keeps s H := by
    apply h.invariant (P := fun x => Keeps x.1 x.2)
    · rintro x rfl
      constructor
      · intro t
        exact ⟨rfl, rfl⟩
      · intro H₁ H₂ hH
        obtain ⟨rfl, rfl⟩ := List.append_eq_nil_iff.mp hH.symm
        exact ⟨[], List.prefix_refl _, fun t => ⟨le_refl 0, le_refl 0⟩⟩
    · rintro x t x' - hx hs
      cases hs with
      | call op hp => apply hx.call op hp
      | internal h => apply hx.internal h
      | ret hp => apply hx.ret hp
  refine ⟨⟨_, sequential_of_reachable ((M.forget σ₀).reachable h)⟩, ?_, ?_, hkeeps.cut.order⟩
  · intro t
    apply (hkeeps.agrees t).listed.1
  · intro t
    apply (hkeeps.agrees t).listed.2

end Monitor
