import PipeAI.Types
import Mathlib.Data.List.FinRange

/-!
# Classification

`Classifier.classify` turns the logits of a result into probabilities, and takes the first
class with the largest probability.  The exponential function is a parameter `exp`.

Whatever the logits are, the class is one of the `kClassCount` classes
(`Classifier.class_id_mem`); in particular, logits that are all equal are given the class 0
(`Classifier.class_id_of_equal`).
-/

universe u

variable {K : Type u}

/-- `std::max_element` on an array of `kClassCount` values: the index of the first largest
one. -/
def maxElement [LinearOrder K] (xs : Fin kClassCount → Flt K) : Fin kClassCount :=
  (List.finRange kClassCount).tail.foldl
    (fun largest it => if (xs largest).lt (xs it) then it else largest)
    ⟨0, by decide⟩

/-- The first of equal values is the first largest one. -/
theorem maxElement_of_equal [LinearOrder K] {xs : Fin kClassCount → Flt K} {v : Flt K}
    (h : ∀ i, xs i = v) :
  maxElement xs = ⟨0, by decide⟩
  := by
  rw [maxElement]
  apply List.foldl_fixed'
  intro i
  rw [h, h, Flt.lt_irrefl]
  rfl

variable [Field K] [LinearOrder K]

/-- `Softmax::apply`. -/
def Softmax.apply (exp : Flt K → Flt K) (logits : Fin kClassCount → Flt K) :
    Fin kClassCount → Flt K :=
  let m := logits (maxElement logits)
  let p : Fin kClassCount → Flt K := fun i => exp (logits i - m)
  let s := (List.finRange kClassCount).foldl (fun s i => s + p i) (.fin 0)
  if Flt.lt (.fin 0) s then fun i => p i / s else p

namespace Classifier

/-- `Classifier::classify`. -/
def classify (exp : Flt K → Flt K) (r : InferenceResult K) : InferenceResult K :=
  let probabilities := Softmax.apply exp r.logits
  let it := maxElement probabilities
  { r with
    probabilities := probabilities
    class_id := (it : ℕ)
    confidence := probabilities it }

/-- Every result is given one of the classes. -/
theorem class_id_mem (exp : Flt K → Flt K) (r : InferenceResult K) :
  0 ≤ (classify exp r).class_id ∧ (classify exp r).class_id < kClassCount
  := by
  have hlt := (maxElement (Softmax.apply exp r.logits)).isLt
  simp only [classify]
  omega

/-- A result whose logits are equal is given the class 0. -/
theorem class_id_of_equal (exp : Flt K → Flt K) {r : InferenceResult K} {v : Flt K}
    (h : ∀ i, r.logits i = v) :
  (classify exp r).class_id = 0
  := by
  have hp : ∃ p, ∀ i, Softmax.apply exp r.logits i = p := by
    simp only [Softmax.apply, h]
    split
    · exact ⟨_, fun _ => rfl⟩
    · exact ⟨_, fun _ => rfl⟩
  obtain ⟨p, hp⟩ := hp
  rw [classify, maxElement_of_equal hp]
  rfl

/-- Where the logits are equal, so are the probabilities. -/
theorem confidence_of_equal (exp : Flt K → Flt K) {r : InferenceResult K} {v : Flt K}
    (h : ∀ i, r.logits i = v) (i : Fin kClassCount) :
  (classify exp r).probabilities i = (classify exp r).confidence
  := by
  have hp : ∀ i j, Softmax.apply exp r.logits i = Softmax.apply exp r.logits j := by
    intro i j
    simp only [Softmax.apply, h]
    split <;> rfl
  apply hp

end Classifier
