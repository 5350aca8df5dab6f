import Mathlib.Data.List.Basic
import Mathlib.Tactic.Use

/-!
# The lines of a text

`lines text` are the lines that reading a text line by line gives: each ends before a line
break, the last one before a line break or at the end of the text, and an empty rest is no
line.  Writing lines with a line break after each and reading them gives the lines again
(`lines_unlines`).
-/

/-- A text, as the list of its characters. -/
abbrev Text : Type := List Char

/-- `std::isspace`, in the default locale. -/
def isSpace (c : Char) : Bool :=
  c = ' ' || c = '\t' || c = '\n' || c = '\x0b' || c = '\x0c' || c = '\r'

/-- The lines that repeated calls of `std::getline` read. -/
def lines : Text → List Text
  | [] => []
  | c :: rest =>
      if c = '\n' then [] :: lines rest
      else
        match lines rest with
        | [] => [[c]]
        | line :: more => (c :: line) :: more

/-- The text with a line break after each of the lines. -/
def unlines (ls : List Text) : Text :=
  ls.flatMap (fun line => line ++ ['\n'])

/-- The first line ends before the first line break. -/
theorem lines_append {line : Text} (h : '\n' ∉ line) (rest : Text) :
  lines (line ++ '\n' :: rest) = line :: lines rest
  := by
  induction line with
  | nil => simp [lines]
  | cons c line ih =>
      rw [List.mem_cons, not_or] at h
      rw [List.cons_append, lines, if_neg (Ne.symm h.1), ih h.2]

/-- The lines that have been written are read. -/
theorem lines_unlines {ls : List Text} (h : ∀ line ∈ ls, '\n' ∉ line) :
  lines (unlines ls) = ls
  := by
  induction ls with
  | nil => rfl
  | cons line ls ih =>
      rw [unlines, List.flatMap_cons, List.append_assoc, List.singleton_append,
        lines_append (h line (by simp))]
      congr 1
      apply ih
      intro line' hline'
      apply h line' (List.mem_cons_of_mem _ hline')

/-- A line break at the end makes no difference, except to a last line that is empty. -/
theorem lines_of_append_newline (text : Text) :
  lines (text ++ ['\n']) = lines text ∨ lines (text ++ ['\n']) = lines text ++ [[]]
  := by
  induction text with
  | nil =>
      right
      rfl
  | cons c text ih =>
      rw [List.cons_append, lines, lines]
      split_ifs with hc
      · rcases ih with ih | ih
        · left
          rw [ih]
        · right
          rw [ih, List.cons_append]
      · rcases ih with ih | ih
        · left
          rw [ih]
        · rcases hrest : lines text with _ | ⟨line, more⟩
          · left
            rw [ih, hrest]
            rfl
          · right
            rw [ih, hrest]
            rfl

/-- The lines that have been written are read without the last line break, all of them or all but
an empty last one. -/
theorem lines_dropLast_unlines {ls : List Text} (h : ∀ line ∈ ls, '\n' ∉ line) :
  lines (unlines ls).dropLast = ls ∨ lines (unlines ls).dropLast ++ [[]] = ls
  := by
  have hlines := lines_unlines h
  rcases List.eq_nil_or_concat ls with rfl | ⟨init, line, rfl⟩
  · left
    rfl
  · have hdrop : (unlines (init.concat line)).dropLast ++ ['\n'] = unlines (init.concat line) := by
      rw [List.concat_eq_append, unlines, List.flatMap_append, List.flatMap_singleton,
        ← List.append_assoc, List.dropLast_concat]
    rw [← hdrop] at hlines
    rcases lines_of_append_newline (unlines (init.concat line)).dropLast with hsame | hsame
    · left
      rw [← hsame, hlines]
    · right
      rw [← hsame, hlines]
