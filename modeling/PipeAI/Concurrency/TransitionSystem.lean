import Mathlib.Data.Countable.Defs
import Mathlib.Data.List.Count
import Mathlib.Data.Nat.Pairing
import Mathlib.Order.Nat
import Mathlib.Order.WellFounded
import Mathlib.Tactic.Use

/-!
# Transition systems

A transition system has initial states and labelled steps.  A state is reachable when
finitely many steps lead to it from an initial state; what holds initially and is kept
by every step holds of every reachable state.  A system restricted by a condition on
steps has the runs whose steps all meet the condition, and conditions that agree on the states of
these runs have the same runs (`run_restrict_iff`).  A projection of one system onto
another takes reachable states to reachable states.

An execution is an infinite sequence of states, each followed by a step or by itself.
It is weakly fair to a label, while a condition holds, when the label, enabled under it from
some time on, is taken later; there are such executions from every state
(`Execution.exists_weaklyFair`).
A measure that every step keeps or decreases, and that the steps with a helpful label
decrease, leads a fair execution out of every region where the helpful label is enabled
(`Execution.reaches_of_measure`).  A measure that the steps with one label decrease, and no
step increases, bounds the number of these steps in any run (`Run.reaches_or_count_le`).  The steps
with one label can be erased from a run when a second state can follow the other steps
(`Run.erases`).
-/

universe u v u' v'

/-- A labelled transition system: its initial states and its steps. -/
structure TransitionSystem (S : Type u) (L : Type v) where
  Init : S → Prop
  Step : S → L → S → Prop

namespace TransitionSystem

variable {S : Type u} {L : Type v} {T : Type u'} {L' : Type v'}

/-! ### Reachable states -/

/-- The states that finitely many steps lead to from an initial state. -/
inductive Reachable (M : TransitionSystem S L) : S → Prop where
  | init {s : S} (h : M.Init s) : Reachable M s
  | step {s s' : S} {l : L} (h : Reachable M s) (hs : M.Step s l s') : Reachable M s'

/-- `M.Run s ls s'`: the steps labelled `ls`, in order, lead from `s` to `s'`. -/
inductive Run (M : TransitionSystem S L) : S → List L → S → Prop where
  | nil (s : S) : Run M s [] s
  | cons {s s' s'' : S} {l : L} {ls : List L} (h : M.Step s l s') (hr : Run M s' ls s'') :
      Run M s (l :: ls) s''

/-- What holds of the initial states and is kept by every step from a reachable state
holds of every reachable state. -/
theorem Reachable.invariant {M : TransitionSystem S L} {P : S → Prop}
    (hinit : ∀ s, M.Init s → P s)
    (hstep : ∀ s l s', M.Reachable s → P s → M.Step s l s' → P s')
    {s : S} (h : M.Reachable s) :
  P s
  := by
  induction h with
  | init h => apply hinit _ h
  | step h hs ih => apply hstep _ _ _ h ih hs

/-- A run from a reachable state ends in a reachable state. -/
theorem Reachable.run {M : TransitionSystem S L} {s s' : S} {ls : List L}
    (h : M.Reachable s) (hr : M.Run s ls s') :
  M.Reachable s'
  := by
  induction hr with
  | nil => apply h
  | cons hs _ ih => apply ih (h.step hs)

/-- A run goes on with another one. -/
theorem Run.append {M : TransitionSystem S L} {s s' s'' : S} {ls ls' : List L}
    (h : M.Run s ls s') (h' : M.Run s' ls' s'') :
  M.Run s (ls ++ ls') s''
  := by
  induction h with
  | nil => apply h'
  | cons hs _ ih => apply Run.cons hs (ih h')

/-- What every step keeps holds at the end of a run from a state where it holds. -/
theorem Run.invariant {M : TransitionSystem S L} {P : S → Prop}
    (hstep : ∀ s l s', P s → M.Step s l s' → P s') {s s' : S} {ls : List L}
    (hr : M.Run s ls s') (h : P s) :
  P s'
  := by
  induction hr with
  | nil => apply h
  | cons hs _ ih => apply ih (hstep _ _ _ h hs)

/-- Let every step from the region `R` reach `G`, or keep `R` without increasing the measure `μ`,
which is positive in `R` and which the steps labelled `l` decrease.  Then a run from `R` reaches
`G` with at most as many steps labelled `l` as the measure says, or has had no more of them. -/
theorem Run.reaches_or_count_le [DecidableEq L] {M : TransitionSystem S L} {l : L} {R G : S → Prop}
    (μ : S → ℕ) (hpos : ∀ s, R s → 0 < μ s)
    (hstep : ∀ s l' s', R s → M.Step s l' s' →
      G s' ∨ R s' ∧ μ s' ≤ μ s ∧ (l' = l → μ s' < μ s))
    {s s' : S} {ls : List L} (hr : M.Run s ls s') (h : R s) :
  (∃ ls₁ ls₂ s₁, ls = ls₁ ++ ls₂ ∧ M.Run s ls₁ s₁ ∧ M.Run s₁ ls₂ s' ∧ G s₁ ∧ ls₁.count l ≤ μ s)
    ∨ R s' ∧ ls.count l + μ s' ≤ μ s
  := by
  induction hr with
  | nil s =>
      right
      use h
      simp
  | @cons s s₁ s' l' ls hs hr ih =>
      have hcount : ∀ ls : List L, (l' :: ls).count l = ls.count l + if l' = l then 1 else 0 := by
        intro ls
        simp [List.count_cons]
      obtain hG | ⟨hR, hle, hlt⟩ := hstep _ _ _ h hs
      · left
        use [l'], ls, s₁, rfl, Run.cons hs (Run.nil _), hr, hG
        have := hpos _ h
        rw [hcount]
        split
        · simpa
        · simp
      · have hdrop : μ s₁ + (if l' = l then 1 else 0) ≤ μ s := by
          split
          · rename_i hl
            apply hlt hl
          · apply hle
        obtain ⟨ls₁, ls₂, s₂, rfl, h₁, h₂, hG, hc⟩ | ⟨hR', hc⟩ := ih hR
        · left
          use l' :: ls₁, ls₂, s₂, rfl, Run.cons hs h₁, h₂, hG
          rw [hcount]
          omega
        · right
          use hR'
          rw [hcount]
          omega

/-- Let the steps labelled `l` from a state related to `u` by `R n` lead to one related to it by
`R (n + 1)`, or by `G`, and let every other step be one that `u` can take too, with related
results.  Then a run leads to a state related by `G` to what its other steps make of `u`, or to
one related by `R` with the number of its steps labelled `l`. -/
theorem Run.erases [DecidableEq L] {M : TransitionSystem S L} {l : L} {R : ℕ → S → S → Prop}
    {G : S → S → Prop}
    (hother : ∀ n u s l' s', R n u s → M.Step s l' s' → l' ≠ l → ∃ u', M.Step u l' u' ∧ R n u' s')
    (hself : ∀ n u s s', R n u s → M.Step s l s' → R (n + 1) u s' ∨ G u s')
    {n : ℕ} {u s s' : S} {ls : List L} (hr : M.Run s ls s') (h : R n u s) :
  (∃ u', M.Run u (ls.filter (fun l' => l' ≠ l)) u' ∧ R (n + ls.count l) u' s')
    ∨ ∃ ls₁ ls₂ u₁ s₁, ls = ls₁ ++ ls₂ ∧ M.Run s ls₁ s₁ ∧ M.Run s₁ ls₂ s'
      ∧ M.Run u (ls₁.filter (fun l' => l' ≠ l)) u₁ ∧ G u₁ s₁
  := by
  induction hr generalizing n u with
  | nil s =>
      left
      exact ⟨u, Run.nil u, h⟩
  | @cons s s₁ s' l' ls hs hr ih =>
      by_cases hl : l' = l
      · subst hl
        obtain hR | hG := hself n u s s₁ h hs
        · obtain ⟨u', hu, hR'⟩ | ⟨ls₁, ls₂, u₁, s₂, rfl, h₁, h₂, hu, hG⟩ := ih hR
          · left
            use u', by simpa using hu
            rw [List.count_cons_self, ← Nat.add_assoc, Nat.add_right_comm]
            apply hR'
          · right
            exact ⟨l' :: ls₁, ls₂, u₁, s₂, rfl, Run.cons hs h₁, h₂, by simpa using hu, hG⟩
        · right
          exact ⟨[l'], ls, u, s₁, rfl, Run.cons hs (Run.nil s₁), hr, by simpa using Run.nil u, hG⟩
      · obtain ⟨u₁, hstep, hR⟩ := hother n u s l' s₁ h hs hl
        obtain ⟨u', hu, hR'⟩ | ⟨ls₁, ls₂, u₂, s₂, rfl, h₁, h₂, hu, hG⟩ := ih hR
        · left
          use u', by simpa [hl] using Run.cons hstep hu
          rw [List.count_cons_of_ne hl]
          apply hR'
        · right
          refine ⟨l' :: ls₁, ls₂, u₂, s₂, rfl, Run.cons hs h₁, h₂, ?_, hG⟩
          simpa [hl] using Run.cons hstep hu

/-! ### Restriction -/

/-- The system whose steps are the steps of `M` that meet the condition `C`. -/
def restrict (M : TransitionSystem S L) (C : S → L → S → Prop) : TransitionSystem S L where
  Init := M.Init
  Step s l s' := M.Step s l s' ∧ C s l s'

/-- A state that steps meeting a condition lead to is reachable. -/
theorem Reachable.of_restrict {M : TransitionSystem S L} {C : S → L → S → Prop} {s : S}
    (h : (M.restrict C).Reachable s) :
  M.Reachable s
  := by
  induction h with
  | init h => exact Reachable.init h
  | step _ hs ih => apply ih.step hs.1

/-- If in the states where `P` holds a step meets `C` exactly when it meets `D`, and the steps that
do keep `P`, then the runs whose steps all meet `C` are the runs whose steps all meet `D`. -/
theorem run_restrict_iff {M : TransitionSystem S L} {C D : S → L → S → Prop} {P : S → Prop}
    (hiff : ∀ s l s', P s → M.Step s l s' → (C s l s' ↔ D s l s'))
    (hstep : ∀ s l s', P s → M.Step s l s' → D s l s' → P s')
    {s s' : S} {ls : List L} (h : P s) :
  (M.restrict C).Run s ls s' ↔ (M.restrict D).Run s ls s'
  := by
  constructor
  · intro hr
    induction hr with
    | nil => apply Run.nil
    | cons hs _ ih =>
        have hD := (hiff _ _ _ h hs.1).mp hs.2
        exact Run.cons (M := M.restrict D) ⟨hs.1, hD⟩ (ih (hstep _ _ _ h hs.1 hD))
  · intro hr
    induction hr with
    | nil => apply Run.nil
    | cons hs _ ih =>
        have hC := (hiff _ _ _ h hs.1).mpr hs.2
        exact Run.cons (M := M.restrict C) ⟨hs.1, hC⟩ (ih (hstep _ _ _ h hs.1 hs.2))

/-! ### Projections -/

/-- A map that takes initial states of `M` to initial states of `N`, and each step from a
reachable state of `M` to a step of `N` or to no change. -/
structure Projection (M : TransitionSystem S L) (N : TransitionSystem T L') where
  map : S → T
  init : ∀ s, M.Init s → N.Init (map s)
  step : ∀ s l s', M.Reachable s → M.Step s l s' →
    map s' = map s ∨ ∃ l', N.Step (map s) l' (map s')

/-- A projection takes reachable states to reachable states. -/
theorem Projection.reachable {M : TransitionSystem S L} {N : TransitionSystem T L'}
    (p : Projection M N) {s : S} (h : M.Reachable s) :
  N.Reachable (p.map s)
  := by
  induction h with
  | init h => apply Reachable.init (p.init _ h)
  | step h hs ih =>
      obtain heq | ⟨l', hs'⟩ := p.step _ _ _ h hs
      · rw [heq]
        apply ih
      · apply ih.step hs'

/-! ### Fair executions -/

/-- An infinite sequence of states, each followed by a step or, where no label is given,
by itself. -/
structure Execution (M : TransitionSystem S L) where
  state : ℕ → S
  label : ℕ → Option L
  step : ∀ n, match label n with
    | some l => M.Step (state n) l (state (n + 1))
    | none => state (n + 1) = state n

/-- A step with the label `l` leaves the state `s`. -/
def Enabled (M : TransitionSystem S L) (l : L) (s : S) : Prop :=
  ∃ s', M.Step s l s'

namespace Execution

variable {M : TransitionSystem S L}

/-- If from some time on the states meet `C` and `l` is enabled, it is taken at that time or
later. -/
def WeaklyFair (E : M.Execution) (C : S → Prop) (l : L) : Prop :=
  ∀ n, (∀ m, n ≤ m → C (E.state m) ∧ M.Enabled l (E.state m)) → ∃ m, n ≤ m ∧ E.label m = some l

/-- The execution that takes the step of the label whose turn it is, where it is enabled, in turns
given by `turn`. -/
noncomputable def byTurns (M : TransitionSystem S L) (turn : ℕ → L) (s : S) : ℕ → S
  | 0 => s
  | n + 1 =>
      open Classical in
      if h : M.Enabled (turn n) (byTurns M turn s n) then h.choose else byTurns M turn s n

/-- From every state there is an execution that is weakly fair to all labels. -/
theorem exists_weaklyFair [Countable L] [Nonempty L] (M : TransitionSystem S L)
    (C : L → S → Prop) (s : S) :
  ∃ E : M.Execution, E.state 0 = s ∧ ∀ l, E.WeaklyFair (C l) l
  := by
  obtain ⟨f, hf⟩ := exists_surjective_nat L
  obtain ⟨turn, hturn⟩ : ∃ turn : ℕ → L, ∀ l n, ∃ m, n ≤ m ∧ turn m = l := by
    use fun n => f n.unpair.1
    intro l n
    obtain ⟨a, rfl⟩ := hf l
    exact ⟨Nat.pair a n, Nat.right_le_pair a n, congrArg (fun p => f p.1) (Nat.unpair_pair a n)⟩
  classical
  let E : M.Execution :=
    { state := byTurns M turn s
      label := fun n => if M.Enabled (turn n) (byTurns M turn s n) then some (turn n) else none
      step := by
        intro n
        rw [byTurns]
        by_cases h : M.Enabled (turn n) (byTurns M turn s n)
        · rw [if_pos h, dif_pos h]
          apply h.choose_spec
        · rw [if_neg h, dif_neg h] }
  refine ⟨E, rfl, ?_⟩
  intro l n henabled
  obtain ⟨m, hm, rfl⟩ := hturn l n
  exact ⟨m, hm, if_pos (henabled m hm).2⟩

/-- What every step keeps holds from a time where it holds on. -/
theorem stable (E : M.Execution) {P : S → Prop}
    (hP : ∀ s l s', P s → M.Step s l s' → P s') {n : ℕ} (h : P (E.state n)) :
  ∀ m, n ≤ m → P (E.state m)
  := by
  intro m hm
  induction m, hm using Nat.le_induction with
  | base => apply h
  | succ m _ ih =>
      have hs := E.step m
      cases hl : E.label m with
      | none =>
          rw [hl] at hs
          rw [hs]
          apply ih
      | some l =>
          rw [hl] at hs
          apply hP _ _ _ ih hs

/-- The states of an execution from a reachable state are reachable. -/
theorem reachable (E : M.Execution) (h : M.Reachable (E.state 0)) (n : ℕ) :
  M.Reachable (E.state n)
  := E.stable (fun _ _ _ hs hstep => hs.step hstep) h n n.zero_le

/-- Let every state of the region `R` have a helpful label, let the helpful labels be enabled, and
let every step from `R` reach `G`, or keep `R` and decrease the measure `μ`, or else keep `R`, the
measure, and the helpful labels, without having one of them.  Then an execution that is weakly fair
to the helpful labels, while the condition for the label holds, as it does in `R`, reaches `G`
from `R`. -/
theorem reaches_of_helpful (E : M.Execution) {α : Type*} [LT α] [WellFoundedLT α]
    {R G : S → Prop} {C : L → S → Prop} (μ : S → α) (Helpful : S → L → Prop)
    (hfair : ∀ s l, R s → Helpful s l → E.WeaklyFair (C l) l)
    (hexists : ∀ s, R s → ∃ l, Helpful s l)
    (henabled : ∀ s l, R s → Helpful s l → C l s ∧ M.Enabled l s)
    (hstep : ∀ s l s', R s → M.Step s l s' → G s' ∨ R s' ∧
      (μ s' < μ s ∨ ¬ Helpful s l ∧ μ s' = μ s ∧ ∀ l', Helpful s l' → Helpful s' l'))
    {n : ℕ} (h : R (E.state n)) :
  ∃ m, n ≤ m ∧ G (E.state m)
  := by
  induction hk : μ (E.state n) using WellFoundedLT.induction generalizing n with
  | ind k ih =>
      by_contra hG
      obtain ⟨l₀, hl₀⟩ := hexists _ h
      have hnext : ∀ m, n ≤ m → R (E.state m) → μ (E.state m) = k → ∀ l, E.label m = some l →
          ¬ Helpful (E.state m) l ∧ R (E.state (m + 1)) ∧ μ (E.state (m + 1)) = k
            ∧ ∀ l', Helpful (E.state m) l' → Helpful (E.state (m + 1)) l' := by
        intro m hm hR hμ l hl
        have hs := E.step m
        rw [hl] at hs
        obtain hg | ⟨hR', hlt | ⟨hne, hμ', hhelp⟩⟩ := hstep _ _ _ hR hs
        · apply absurd ⟨m + 1, by omega, hg⟩ hG
        · obtain ⟨m', hm', hg⟩ := ih _ (hμ ▸ hlt) hR' rfl
          apply absurd ⟨m', by omega, hg⟩ hG
        · exact ⟨hne, hR', hμ'.trans hμ, hhelp⟩
      have hstays : ∀ m, n ≤ m → R (E.state m) ∧ μ (E.state m) = k
          ∧ Helpful (E.state m) l₀ := by
        intro m hm
        induction m, hm using Nat.le_induction with
        | base => exact ⟨h, hk, hl₀⟩
        | succ m hm hrec =>
            obtain ⟨hR, hμ, hhelp⟩ := hrec
            cases hl : E.label m with
            | none =>
                have hs := E.step m
                rw [hl] at hs
                rw [hs]
                exact ⟨hR, hμ, hhelp⟩
            | some l =>
                obtain ⟨-, hR', hμ', hhelp'⟩ := hnext m hm hR hμ l hl
                exact ⟨hR', hμ', hhelp' _ hhelp⟩
      obtain ⟨m, hm, hl⟩ := hfair _ _ h hl₀ n (by
        intro m hm
        obtain ⟨hR, -, hhelp⟩ := hstays m hm
        apply henabled _ _ hR hhelp)
      obtain ⟨hR, hμ, hhelp⟩ := hstays m hm
      apply (hnext m hm hR hμ _ hl).1 hhelp

/-- Let every state of the region `R` have a helpful label that is enabled, and let every step from
`R` reach `G`, or keep `R` and decrease the measure `μ`, or else keep `R`, the measure, and the
helpful label, without having it.  Then an execution that is weakly fair to the helpful labels
while `C` holds, as it does in `R`, reaches `G` from `R`. -/
theorem reaches_of_measure (E : M.Execution) {α : Type*} [LT α] [WellFoundedLT α]
    {C R G : S → Prop} (μ : S → α) (helpful : S → L) (hC : ∀ s, R s → C s)
    (hfair : ∀ s, R s → E.WeaklyFair C (helpful s))
    (henabled : ∀ s, R s → M.Enabled (helpful s) s)
    (hstep : ∀ s l s', R s → M.Step s l s' → G s' ∨ R s' ∧
      (μ s' < μ s ∨ l ≠ helpful s ∧ μ s' = μ s ∧ helpful s' = helpful s))
    {n : ℕ} (h : R (E.state n)) :
  ∃ m, n ≤ m ∧ G (E.state m)
  := by
  apply E.reaches_of_helpful μ (fun s l => l = helpful s) (C := fun _ => C) _ _ _ _ h
  · rintro s l hs rfl
    apply hfair s hs
  · intro s _
    exact ⟨_, rfl⟩
  · rintro s l hs rfl
    exact ⟨hC s hs, henabled s hs⟩
  · intro s l s' hs hl
    obtain hg | ⟨hs', hlt | ⟨hne, hμ, hhelp⟩⟩ := hstep s l s' hs hl
    · exact Or.inl hg
    · exact Or.inr ⟨hs', Or.inl hlt⟩
    · right
      refine ⟨hs', Or.inr ⟨hne, hμ, ?_⟩⟩
      rintro l' rfl
      apply hhelp.symm

end Execution

end TransitionSystem
