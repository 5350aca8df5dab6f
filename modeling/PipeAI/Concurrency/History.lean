import Mathlib.Data.List.Basic
import Mathlib.Tactic.Use

/-!
# Histories of calls

A component whose calls are served one after the other is a function `step` from a state and a
call to the next state; `calls.foldl step s` is the state after a list of calls.

`Throughout step P s calls` says that `P` holds before, between and after the calls, and
`EachCall step C s calls` that every call meets the condition `C` in the state it finds.  If a
call keeps `P` exactly when it meets `C`, then `P` holds throughout exactly when each call
meets `C` (`throughout_iff_eachCall`).
-/

universe u v

variable {S : Type u} {L : Type v}

/-- The condition `P` holds before, between and after the calls. -/
def Throughout (step : S → L → S) (P : S → Prop) (s : S) (calls : List L) : Prop :=
  ∀ before, before <+: calls → P (before.foldl step s)

/-- Each of the calls meets the condition `C` in the state it finds. -/
def EachCall (step : S → L → S) (C : S → L → Prop) (s : S) (calls : List L) : Prop :=
  ∀ before call, before ++ [call] <+: calls → C (before.foldl step s) call

variable {step : S → L → S} {P Q : S → Prop} {C V : S → L → Prop} {s : S} {calls : List L}

@[simp]
theorem throughout_nil :
  Throughout step P s [] ↔ P s
  := by
  simp [Throughout]

@[simp]
theorem throughout_cons {call : L} :
  Throughout step P s (call :: calls) ↔ P s ∧ Throughout step P (step s call) calls
  := by
  constructor
  · intro h
    constructor
    · apply h [] List.nil_prefix
    · intro before hbefore
      apply h (call :: before)
      simpa using hbefore
  · rintro ⟨hs, h⟩ before hbefore
    rcases before with _ | ⟨call', before⟩
    · apply hs
    · rw [List.cons_prefix_cons] at hbefore
      rw [hbefore.1]
      apply h before hbefore.2

@[simp]
theorem eachCall_nil :
  EachCall step C s []
  := by
  intro before call h
  simp at h

@[simp]
theorem eachCall_cons {call : L} :
  EachCall step C s (call :: calls) ↔ C s call ∧ EachCall step C (step s call) calls
  := by
  constructor
  · intro h
    constructor
    · apply h []
      simp
    · intro before call' hbefore
      apply h (call :: before)
      simpa using hbefore
  · rintro ⟨hs, h⟩ before call' hbefore
    rcases before with _ | ⟨call'', before⟩
    · rw [List.nil_append, List.cons_prefix_cons] at hbefore
      rw [hbefore.1]
      apply hs
    · rw [List.cons_append, List.cons_prefix_cons] at hbefore
      rw [hbefore.1]
      apply h before call' hbefore.2

/-- What holds initially and is kept by every valid call holds throughout valid calls. -/
theorem throughout_of_invariant (hs : P s) (hvalid : EachCall step V s calls)
    (hstep : ∀ s call, P s → V s call → P (step s call)) :
  Throughout step P s calls
  := by
  induction calls generalizing s with
  | nil => simpa
  | cons call calls ih =>
      rw [eachCall_cons] at hvalid
      rw [throughout_cons]
      use hs
      apply ih (hstep _ _ hs hvalid.1) hvalid.2

/-- If a valid call keeps `P` exactly when it meets `C`, then `P` holds throughout valid calls
exactly when each of them meets `C`. -/
theorem throughout_iff_eachCall (hs : P s) (hvalid : EachCall step V s calls)
    (hstep : ∀ s call, P s → V s call → (P (step s call) ↔ C s call)) :
  Throughout step P s calls ↔ EachCall step C s calls
  := by
  induction calls generalizing s with
  | nil => simpa
  | cons call calls ih =>
      rw [eachCall_cons] at hvalid
      rw [throughout_cons, eachCall_cons]
      have hiff := hstep s call hs hvalid.1
      constructor
      · rintro ⟨-, h⟩
        have hnext : P (step s call) := h [] List.nil_prefix
        exact ⟨hiff.mp hnext, (ih hnext hvalid.2).mp h⟩
      · rintro ⟨hc, h⟩
        have hnext := hiff.mpr hc
        exact ⟨hs, (ih hnext hvalid.2).mpr h⟩

/-- Conditions that hold throughout hold together throughout. -/
theorem Throughout.and (hP : Throughout step P s calls) (hQ : Throughout step Q s calls) :
  Throughout step (fun s => P s ∧ Q s) s calls
  := fun before h => ⟨hP before h, hQ before h⟩

/-- What follows from a condition that holds throughout holds throughout. -/
theorem Throughout.imp (hP : Throughout step P s calls) (h : ∀ s, P s → Q s) :
  Throughout step Q s calls
  := fun before hbefore => h _ (hP before hbefore)
