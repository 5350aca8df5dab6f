import Mathlib.Data.Nat.Init
import Mathlib.Tactic.Use

/-!
# Loops with a condition

`whileLoop test body fuel s` evaluates a condition, which may change the state, and executes the
body while the condition holds.  The body may fail, and then the loop fails; the loop also fails
when the condition is evaluated more than `fuel` times.

If every iteration keeps an invariant and decreases a measure, then the loop ends with any fuel
above the measure, and always in the same state (`whileLoop_spec`).
-/

universe u

variable {σ : Type u}

/-- The loop. -/
def whileLoop (test : σ → Bool × σ) (body : σ → Option σ) : ℕ → σ → Option σ
  | 0, _ => none
  | fuel + 1, s =>
      match test s with
      | (true, s) => (body s).bind (whileLoop test body fuel)
      | (false, s) => some s

/-- A loop with an invariant `P` that each iteration keeps, a measure `μ` that each iteration
decreases, and a condition `Q` that holds where the loop is left, ends with `Q`. -/
theorem whileLoop_spec {test : σ → Bool × σ} {body : σ → Option σ} (P Q : σ → Prop) (μ : σ → ℕ)
    (hbody : ∀ s s₁, P s → test s = (true, s₁) → ∃ s', body s₁ = some s' ∧ P s' ∧ μ s' < μ s)
    (hexit : ∀ s s₁, P s → test s = (false, s₁) → Q s₁) {s : σ} (hs : P s) :
  ∃ s', Q s' ∧ ∀ fuel, μ s < fuel → whileLoop test body fuel s = some s'
  := by
  induction hμ : μ s using Nat.strong_induction_on generalizing s with
  | _ m ih =>
      obtain ⟨more, s₁, htest⟩ : ∃ more s₁, test s = (more, s₁) := ⟨_, _, rfl⟩
      cases more with
      | false =>
          use s₁, hexit s s₁ hs htest
          rintro ⟨⟩ hfuel
          · omega
          · rw [whileLoop, htest]
      | true =>
          obtain ⟨s₂, hs₂, hP, hlt⟩ := hbody s s₁ hs htest
          obtain ⟨s', hQ, hloop⟩ := ih (μ s₂) (by omega) hP rfl
          use s', hQ
          rintro ⟨⟩ hfuel
          · omega
          · rename_i fuel
            rw [whileLoop, htest]
            simp only [hs₂, Option.bind_some]
            apply hloop fuel
            omega
