import Mathlib.Data.List.DropRight

/-!
# Stripping a list at both ends

`strip p s` is the list `s` without the elements at both ends that satisfy `p`.  It is empty
exactly when all elements satisfy `p`; it is not changed by elements that satisfy `p` and are
added at either end; and it is `s` itself when neither the first nor the last element of `s`
satisfies `p`.  Stripping goes up to an element that does not satisfy `p` from either side
(`strip_append_cons`).
-/

universe u

variable {α : Type u} (p : α → Bool)

/-- The list without the elements at both ends that satisfy `p`. -/
def strip (s : List α) : List α :=
  (s.dropWhile p).rdropWhile p

variable {p}

/-- A list is stripped from what satisfies `p` on its left and its right. -/
theorem exists_eq_append_strip (s : List α) :
  ∃ left right, s = left ++ (strip p s ++ right) ∧ (∀ c ∈ left, p c = true)
    ∧ ∀ c ∈ right, p c = true
  := by
  use s.takeWhile p, (s.dropWhile p).rtakeWhile p
  constructor
  · rw [strip, List.rdropWhile_append_rtakeWhile, List.takeWhile_append_dropWhile]
  · constructor
    · intro c hc
      apply List.mem_takeWhile_imp hc
    · intro c hc
      apply List.mem_rtakeWhile_imp hc

/-- Nothing is left exactly when all elements satisfy `p`. -/
theorem strip_eq_nil_iff {s : List α} :
  strip p s = [] ↔ ∀ c ∈ s, p c = true
  := by
  rw [strip, List.rdropWhile_eq_nil_iff]
  constructor
  · intro h c hc
    rw [← List.takeWhile_append_dropWhile (p := p) (l := s), List.mem_append] at hc
    rcases hc with hc | hc
    · apply List.mem_takeWhile_imp hc
    · apply h c hc
  · intro h c hc
    apply h c ((List.dropWhile_sublist p).mem hc)

/-- Elements that satisfy `p` do not count at the left end. -/
theorem strip_append_left {left : List α} (h : ∀ c ∈ left, p c = true) (s : List α) :
  strip p (left ++ s) = strip p s
  := by
  rw [strip, List.dropWhile_append_of_pos h, strip]

/-- Elements that satisfy `p` do not count at the right end. -/
theorem strip_append_right (s : List α) {right : List α} (h : ∀ c ∈ right, p c = true) :
  strip p (s ++ right) = strip p s
  := by
  rw [strip, strip, List.dropWhile_append]
  split
  · rename_i hs
    rw [List.isEmpty_iff] at hs
    rw [hs, List.dropWhile_eq_nil_iff.mpr h]
  · rw [List.rdropWhile, List.reverse_append,
      List.dropWhile_append_of_pos (by simpa using h), List.rdropWhile]

/-- A list whose first and last elements do not satisfy `p` is not changed. -/
theorem strip_eq_self {s : List α} (hhead : ∀ c ∈ s.head?, p c = false)
    (hlast : ∀ c ∈ s.getLast?, p c = false) :
  strip p s = s
  := by
  have hdrop : s.dropWhile p = s := by
    rcases s with _ | ⟨c, s⟩
    · rfl
    · apply List.dropWhile_cons_of_neg
      simp [hhead c rfl]
  rw [strip, hdrop, List.rdropWhile_eq_self_iff]
  intro hs
  simp [hlast _ (List.getLast?_eq_some_getLast hs)]

/-- A list without an element that satisfies `p` is not changed. -/
theorem strip_of_forall {s : List α} (h : ∀ c ∈ s, p c = false) :
  strip p s = s
  := by
  apply strip_eq_self
  · intro c hc
    apply h c (List.mem_of_mem_head? hc)
  · intro c hc
    apply h c (List.mem_of_getLast? hc)

/-- The first element left does not satisfy `p`. -/
theorem head?_strip {s : List α} {c : α} (h : c ∈ (strip p s).head?) :
  p c = false
  := by
  have hpre : strip p s <+: s.dropWhile p := List.rdropWhile_prefix p _
  rcases hs : s.dropWhile p with _ | ⟨d, rest⟩
  · rw [hs, List.prefix_nil] at hpre
    rw [hpre] at h
    cases h
  · have hd : p d = false := by
      have hnot := List.head_dropWhile_not p (l := s) (by rw [hs]; simp)
      simpa [hs] using hnot
    rcases hstrip : strip p s with _ | ⟨e, rest'⟩
    · rw [hstrip] at h
      cases h
    · rw [hstrip, hs, List.cons_prefix_cons] at hpre
      rw [hstrip] at h
      cases h
      rw [hpre.1]
      apply hd

/-- The last element left does not satisfy `p`. -/
theorem getLast?_strip {s : List α} {c : α} (h : c ∈ (strip p s).getLast?) :
  p c = false
  := by
  have hne : strip p s ≠ [] := by
    intro hnil
    rw [hnil] at h
    cases h
  have hnot := List.rdropWhile_last_not p (s.dropWhile p) hne
  rw [Option.mem_def, List.getLast?_eq_some_getLast hne, Option.some.injEq] at h
  rw [← h]
  simpa [strip] using hnot

/-- Stripping twice is stripping once. -/
@[simp]
theorem strip_strip (s : List α) :
  strip p (strip p s) = strip p s
  := by
  apply strip_eq_self
  · intro c hc
    apply head?_strip hc
  · intro c hc
    apply getLast?_strip hc

/-- The elements left are elements of the list. -/
theorem mem_of_mem_strip {s : List α} {c : α} (h : c ∈ strip p s) :
  c ∈ s
  := by
  obtain ⟨left, right, heq, -, -⟩ := exists_eq_append_strip (p := p) s
  rw [heq]
  simp [h]

/-- An element that does not satisfy `p` stays first when the list is stripped at its right. -/
theorem rdropWhile_cons {c : α} (hc : p c = false) (s : List α) :
  (c :: s).rdropWhile p = c :: s.rdropWhile p
  := by
  rw [List.rdropWhile, List.reverse_cons, List.dropWhile_append, List.rdropWhile]
  split
  · rename_i hs
    rw [List.isEmpty_iff] at hs
    simp [hs, hc]
  · simp

/-- An element that does not satisfy `p` stays where it is. -/
theorem strip_append_cons (s : List α) {c : α} (hc : p c = false) (t : List α) :
  strip p (s ++ c :: t) = s.dropWhile p ++ c :: t.rdropWhile p
  := by
  have hdrop : (s ++ c :: t).dropWhile p = s.dropWhile p ++ c :: t := by
    rw [List.dropWhile_append]
    split
    · rename_i hs
      rw [List.isEmpty_iff] at hs
      simp [hs, hc]
    · rfl
  have hright : ∀ s : List α, (s ++ c :: t).rdropWhile p = s ++ c :: t.rdropWhile p := by
    intro s
    rw [← rdropWhile_cons hc, List.rdropWhile, List.reverse_append, List.dropWhile_append]
    split
    · rename_i ht
      rw [List.isEmpty_iff, List.dropWhile_eq_nil_iff] at ht
      have hp := ht c (by simp)
      rw [hc] at hp
      cases hp
    · simp [List.rdropWhile]
  rw [strip, hdrop, hright]

/-- The left end is stripped once. -/
theorem strip_dropWhile (s : List α) :
  strip p (s.dropWhile p) = strip p s
  := by
  rw [strip, List.dropWhile_idempotent, strip]

/-- The right end is stripped once. -/
theorem strip_rdropWhile (s : List α) :
  strip p (s.rdropWhile p) = strip p s
  := by
  have hright : ∀ c ∈ s.rtakeWhile p, p c = true := by
    intro c hc
    apply List.mem_rtakeWhile_imp hc
  rw [← strip_append_right (s.rdropWhile p) hright, List.rdropWhile_append_rtakeWhile]

/-- A list begins in the same way with its right end stripped or not, when its left end is. -/
theorem head?_dropWhile (s : List α) :
  (s.dropWhile p).head? = (strip p s).head?
  := by
  rw [strip]
  rcases hs : s.dropWhile p with _ | ⟨c, rest⟩
  · rfl
  · rw [rdropWhile_cons, List.head?_cons, List.head?_cons]
    have hnot := List.head_dropWhile_not p (l := s) (by rw [hs]; simp)
    simpa [hs] using hnot
