import PipeAI.Pipeline.Delivery

/-!
# Class decisions

The third stage classifies every result it receives, also one for which the inference has
failed: its logits are all zero then, and are given a class.  Hence a class is only reported
for windows whose inference succeeded as long as the engine answers well on all windows that
are delivered, and no longer (`onlyDecides_iff`).
-/

namespace Pipeline

variable {σ K : Type}

/-- A class has been decided on: `class_id` is one of the `kClassCount` classes. -/
def Decided (r : InferenceResult K) : Prop :=
  0 ≤ r.class_id ∧ r.class_id < kClassCount

/-- The callback has only been given class decisions for windows whose inference succeeded. -/
def OnlyDecides (s : State σ K) : Prop :=
  ∀ (k : ℕ) (r : InferenceResult K), s.core.callbacks[k]? = some r → Decided r →
    ∃ (input : ModelInput K) (a : Answer K), s.core.inferred[k]? = some (input, a) ∧ a.Good

/-- The condition on a step that the engine, if it is called, is ready and succeeds with at
least `kClassCount` logits. -/
def AnswersWell (s : State σ K) (_ : Thread σ) (s' : State σ K) : Prop :=
  ∀ p, s'.core.inferred = s.core.inferred ++ [p] → p.2.Good

variable [Field K] [LinearOrder K] [DecidableEq σ] {P : Params K}

/-- A step leaves the tensors inferred, or infers one more. -/
theorem Step.inferred {s s' : State σ K} {t : Thread σ} (h : Step P s t s') :
  s'.core.inferred = s.core.inferred ∨ ∃ p, s'.core.inferred = s.core.inferred ++ [p]
  := by
  obtain ⟨a, hc, -⟩ | ⟨hcore, -⟩ := h.cases
  · by_cases ht : t = .stage .inference
    · subst ht
      generalize s'.core = c' at hc
      cases hc with
      | infer hp a => exact Or.inr ⟨_, rfl⟩
      | _ => exact Or.inl rfl
    · left
      apply (hc.inferring ht).2.2
  · left
    rw [hcore]

/-- The answers in a run that meets the condition are good. -/
theorem good_of_answersWell {s : State σ K}
    (h : ((system σ P).restrict AnswersWell).Reachable s) :
  ∀ p ∈ s.core.inferred, p.2.Good
  := by
  apply h.invariant
  · rintro s rfl p hp
    cases hp
  · rintro s t s' - ih ⟨hstep, hwell⟩
    obtain hsame | ⟨p, hsnoc⟩ := Step.inferred hstep
    · rw [hsame]
      apply ih
    · rw [hsnoc]
      intro q hq
      obtain hq | hq := List.mem_append.mp hq
      · apply ih q hq
      · cases List.mem_singleton.mp hq
        apply hwell p hsnoc

/-- A run in which the answers are good meets the condition. -/
theorem answersWell_of_good {s : State σ K} (h : (system σ P).Reachable s)
    (hgood : ∀ p ∈ s.core.inferred, p.2.Good) :
  ((system σ P).restrict AnswersWell).Reachable s
  := by
  induction h with
  | init h => exact TransitionSystem.Reachable.init h
  | @step s s' t _ hstep ih =>
      have hmono : s.core.inferred <+: s'.core.inferred := by
        obtain hsame | ⟨p, hsnoc⟩ := Step.inferred hstep
        · rw [hsame]
        · rw [hsnoc]
          apply List.prefix_append
      have hs := ih (fun p hp => hgood p (hmono.subset hp))
      apply hs.step ⟨hstep, _⟩
      intro p hsnoc
      apply hgood
      rw [hsnoc]
      simp

/-- In every reachable state, a class has been decided on for every result delivered. -/
theorem decided_of_reachable {s : State σ K} (h : (system σ P).Reachable s) {k : ℕ}
    {r : InferenceResult K} (hk : s.core.callbacks[k]? = some r) :
  Decided r
  := by
  obtain ⟨input, a, -, rfl⟩ := callbacks_of_reachable h hk
  apply Classifier.class_id_mem

/-- In every reachable state, the callback has only been given class decisions for windows whose
inference succeeded just when the answers for the windows delivered are good. -/
theorem onlyDecides_of_reachable {s : State σ K} (h : (system σ P).Reachable s) :
  OnlyDecides s ↔ ∀ p ∈ s.core.inferred.take s.core.callbacks.length, p.2.Good
  := by
  constructor
  · intro honly p hp
    obtain ⟨k, hk, hget⟩ := List.mem_take_iff_getElem.mp hp
    have hk' : k < s.core.callbacks.length := by omega
    obtain ⟨input, a, hinferred, hgood⟩ :=
      honly k _ (List.getElem?_eq_getElem hk')
        (decided_of_reachable h (List.getElem?_eq_getElem hk'))
    obtain ⟨_, hinferred⟩ := List.getElem?_eq_some_iff.mp hinferred
    rw [← hget, hinferred]
    apply hgood
  · intro hgood k r hk _
    obtain ⟨input, a, hinferred, -⟩ := callbacks_of_reachable h hk
    obtain ⟨hlt, -⟩ := List.getElem?_eq_some_iff.mp hk
    obtain ⟨hlt', hget⟩ := List.getElem?_eq_some_iff.mp hinferred
    refine ⟨input, a, hinferred, hgood (input, a) ?_⟩
    rw [List.mem_take_iff_getElem]
    exact ⟨k, by omega, hget⟩

/-- In a run in which the engine answers well whenever it is called, the callback is only given
class decisions for windows whose inference succeeded; and in any run, it has been so just when
the engine has answered well on the windows delivered. -/
theorem onlyDecides_iff (P : Params K) :
  (∀ s, ((system σ P).restrict AnswersWell).Reachable s → OnlyDecides s)
    ∧ ∀ s, (system σ P).Reachable s →
      (OnlyDecides s ↔ ∀ p ∈ s.core.inferred.take s.core.callbacks.length, p.2.Good)
  := by
  constructor
  · intro s h
    rw [onlyDecides_of_reachable h.of_restrict]
    intro p hp
    apply good_of_answersWell h p (List.mem_of_mem_take hp)
  · intro s h
    apply onlyDecides_of_reachable h

/-- The theorem in a run that delivers a window. -/
theorem onlyDecides_iff_window :
  ∃ s : State Unit ℚ, ((system Unit Params.small).restrict AnswersWell).Reachable s
    ∧ s.core.callbacks.length = 1 ∧ OnlyDecides s
    ∧ (OnlyDecides s ↔ ∀ p ∈ s.core.inferred.take s.core.callbacks.length, p.2.Good)
  := by
  obtain ⟨c, input, ⟨rawLog, tensorLog, resultLog, h⟩, -, -, hinferred, hcallbacks⟩ :=
    exists_delivered Params.small () length_defaultWindow Answer.zeros
  have hwell := answersWell_of_good h (by
    rw [hinferred]
    intro p hp
    cases List.mem_singleton.mp hp
    apply Answer.good_zeros)
  refine ⟨_, hwell, ?_, (onlyDecides_iff Params.small).1 _ hwell,
    (onlyDecides_iff Params.small).2 _ h⟩
  rw [hcallbacks]
  rfl

/-- A window for which the engine was not ready is reported as the class 0. -/
theorem not_onlyDecides_of_not_ready :
  ∃ s : State Unit ℚ, (system Unit Params.small).Reachable s
    ∧ s.core.inferred.map (fun p => p.2.ready) = [false]
    ∧ s.core.callbacks.map (fun r => r.class_id) = [0]
    ∧ ¬ OnlyDecides s
  := by
  obtain ⟨c, input, ⟨rawLog, tensorLog, resultLog, h⟩, -, -, hinferred, hcallbacks⟩ :=
    exists_delivered Params.small () length_defaultWindow ⟨false, .success, []⟩
  refine ⟨_, h, ?_, ?_, ?_⟩
  · rw [hinferred]
    rfl
  · have hclass : (Classifier.classify Params.small.exp
        (inferenceResult 1 ⟨false, .success, []⟩)).class_id = 0 :=
      Classifier.class_id_of_equal Params.small.exp (fun _ => rfl)
    rw [hcallbacks, List.map_singleton, hclass]
  · intro honly
    have hk : c.callbacks[0]? = some
        (Classifier.classify Params.small.exp (inferenceResult 1 ⟨false, .success, []⟩)) := by
      rw [hcallbacks]
      rfl
    obtain ⟨input', a, ha, hready, -⟩ := honly 0 _ hk (decided_of_reachable h hk)
    rw [hinferred] at ha
    cases ha
    cases hready

end Pipeline
