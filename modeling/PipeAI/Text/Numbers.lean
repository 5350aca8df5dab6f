import PipeAI.Numeric.Flt
import PipeAI.Text.Lines
import Mathlib.Algebra.Order.Field.Rat
import Mathlib.Data.List.DropRight
import Mathlib.Data.Rat.Cast.Defs

/-!
# Numbers in texts

Two ways to read a floating-point number from a text.  `strtof`, of the C library, reads the
longest part of a text that is a number: decimal, hexadecimal, infinite, or not a number, after
white space.  Extraction from a stream, of the C++ library, accumulates the longest part that
can begin a decimal number, and converts what it has accumulated with `strtof`, which must read
all of it and stay within the range of the type.

A part of a text is read in the same way whatever follows it, as long as no character follows
that could continue a number (`scanFloat_append`).  What `strtof` reads as a whole is decimal,
and then extraction accumulates all of it; or it is hexadecimal; or it is infinite or not a
number, and then extraction accumulates nothing but its sign (`scanFloat_of_strtof`).
-/

/-- A floating-point type: its rounding of rational numbers, which may overflow to an infinity,
and its largest finite value. -/
structure FloatType where
  round : ℚ → Flt ℚ
  max : ℚ

/-- The type of all rational numbers up to a largest one, with infinities beyond. -/
def FloatType.upTo (max : ℚ) : FloatType where
  round := fun x => Flt.convert max (.fin x)
  max := max

/-- `float`, up to its rounding of numbers within its range. -/
def FloatType.float : FloatType := .upTo (floatMax ℚ)

/-! ### Parts of numbers

Each scan gives the part of the text that it reads, and the rest. -/

/-- An optional sign. -/
def scanSign : Text → Text × Text
  | [] => ([], [])
  | c :: rest => if c = '+' ∨ c = '-' then ([c], rest) else ([], c :: rest)

/-- Decimal digits. -/
def scanDigits (s : Text) : Text × Text :=
  (s.takeWhile Char.isDigit, s.dropWhile Char.isDigit)

/-- An optional decimal point, and decimal digits after it. -/
def scanFraction : Text → Text × Text
  | [] => ([], [])
  | c :: rest =>
      if c = '.' then ('.' :: (scanDigits rest).1, (scanDigits rest).2) else ([], c :: rest)

/-- An optional mark of an exponent, and an optional sign and decimal digits after it. -/
def scanExponent : Text → Text × Text
  | [] => ([], [])
  | c :: rest =>
      if c = 'e' ∨ c = 'E' then
        (c :: ((scanSign rest).1 ++ (scanDigits (scanSign rest).2).1),
          (scanDigits (scanSign rest).2).2)
      else ([], c :: rest)

/-- The digits before and after the decimal point. -/
def scanMantissa (s : Text) : Text × Text :=
  ((scanDigits s).1 ++ (scanFraction (scanDigits s).2).1, (scanFraction (scanDigits s).2).2)

/-! ### Conversion -/

/-- The value of decimal or hexadecimal digits. -/
def digitsValue (base : ℕ) (digits : Text) : ℕ :=
  digits.foldl (fun value c =>
    base * value
      + (if c.isDigit then c.toNat - '0'.toNat else (c.toLower.toNat - 'a'.toNat) + 10)) 0

/-- The value of an optional sign and digits. -/
def signedValue (s : Text) : ℤ :=
  if s.head? = some '-' then -(digitsValue 10 (scanSign s).2 : ℤ)
  else digitsValue 10 (scanSign s).2

/-- The value of digits with an optional point. -/
def mantissaValue (base : ℕ) (mantissa : Text) : ℚ :=
  digitsValue base (mantissa.filter (fun c => c ≠ '.'))
    / (base : ℚ) ^ ((mantissa.dropWhile (fun c => c ≠ '.')).length - 1)

/-- An exponent is read where it has a digit. -/
def scanFullExponent (s : Text) : Text × Text :=
  if (scanExponent s).1.any Char.isDigit then scanExponent s else ([], s)

/-- A decimal number: its value and the rest. -/
def scanDecimal (s : Text) : Option (ℚ × Text) :=
  if (scanMantissa s).1.any Char.isDigit then
    some (mantissaValue 10 (scanMantissa s).1
        * (10 : ℚ) ^ signedValue (scanFullExponent (scanMantissa s).2).1.tail,
      (scanFullExponent (scanMantissa s).2).2)
  else none

/-- A hexadecimal digit. -/
def isHexDigit (c : Char) : Bool :=
  c.isDigit || ('a' ≤ c.toLower && c.toLower ≤ 'f')

/-- The digits before and after the point of a hexadecimal number. -/
def scanHexMantissa (s : Text) : Text × Text :=
  let whole := s.takeWhile isHexDigit
  match s.dropWhile isHexDigit with
  | [] => (whole, [])
  | c :: rest =>
      if c = '.' then (whole ++ '.' :: rest.takeWhile isHexDigit, rest.dropWhile isHexDigit)
      else (whole, c :: rest)

/-- An exponent of a hexadecimal number is read where it has a digit. -/
def scanHexExponent : Text → Text × Text
  | [] => ([], [])
  | c :: rest =>
      if (c = 'p' ∨ c = 'P') ∧ (scanDigits (scanSign rest).2).1 ≠ [] then
        (c :: ((scanSign rest).1 ++ (scanDigits (scanSign rest).2).1),
          (scanDigits (scanSign rest).2).2)
      else ([], c :: rest)

/-- A hexadecimal number: its value and the rest. -/
def scanHex : Text → Option (ℚ × Text)
  | '0' :: x :: rest =>
      if (x = 'x' ∨ x = 'X') ∧ (scanHexMantissa rest).1.any isHexDigit then
        some (mantissaValue 16 (scanHexMantissa rest).1
            * (2 : ℚ) ^ signedValue (scanHexExponent (scanHexMantissa rest).2).1.tail,
          (scanHexExponent (scanHexMantissa rest).2).2)
      else none
  | _ => none

/-- The text starts with a word, in letters of either case. -/
def startsWith (word s : Text) : Bool :=
  (s.take word.length).map Char.toLower = word

/-- An infinity: the rest. -/
def scanInfinity (s : Text) : Option Text :=
  if startsWith "infinity".toList s then some (s.drop 8)
  else if startsWith "inf".toList s then some (s.drop 3)
  else none

/-- Not a number, with an optional description in parentheses: the rest. -/
def scanNan (s : Text) : Option Text :=
  if startsWith "nan".toList s then
    match s.drop 3 with
    | '(' :: rest =>
        match rest.dropWhile (fun c => c.isAlphanum || c = '_') with
        | ')' :: rest' => some rest'
        | _ => some ('(' :: rest)
    | rest => some rest
  else none

/-- A number without sign: its value and the rest. -/
def scanNumber (F : FloatType) (s : Text) : Option (Flt ℚ × Text) :=
  match scanHex s with
  | some (x, rest) => some (F.round x, rest)
  | none =>
      match scanDecimal s with
      | some (x, rest) => some (F.round x, rest)
      | none =>
          match scanInfinity s with
          | some rest => some (.posInf, rest)
          | none => (scanNan s).map (fun rest => (.nan, rest))

/-- `std::strtof`: the value, and the number of characters read, which is 0 where there is no
number. -/
def strtof (F : FloatType) (s : Text) : Flt ℚ × ℕ :=
  let body := s.dropWhile isSpace
  match scanNumber F (scanSign body).2 with
  | none => (.fin 0, 0)
  | some (value, rest) =>
      (if (scanSign body).1 = ['-'] then -value else value, s.length - rest.length)

/-! ### Extraction -/

/-- What extraction of a number accumulates, and the rest. -/
def scanFloat (s : Text) : Text × Text :=
  let sign := scanSign s
  let mantissa := scanMantissa sign.2
  if mantissa.1.any Char.isDigit then
    (sign.1 ++ (mantissa.1 ++ (scanExponent mantissa.2).1), (scanExponent mantissa.2).2)
  else (sign.1 ++ mantissa.1, mantissa.2)

/-- A stream: the text not yet extracted, and the bits of its state. -/
structure InStream where
  rest : Text
  fail : Bool
  eof : Bool
  deriving DecidableEq

namespace InStream

/-- A stream of a text. -/
def ofText (s : Text) : InStream := ⟨s, false, false⟩

/-- What is extracted next: what follows the white space, if the stream is good. -/
def next (s : InStream) : Option Text :=
  if s.fail || s.eof then none
  else if s.rest.dropWhile isSpace = [] then none
  else some (s.rest.dropWhile isSpace)

/-- The stream from which nothing could be extracted. -/
def exhausted (s : InStream) : InStream :=
  if s.fail || s.eof then { s with fail := true } else ⟨[], true, true⟩

/-- The extraction of a character. -/
def getChar (s : InStream) (value : Char) : Char × InStream :=
  match s.next with
  | some (c :: rest) => (c, ⟨rest, false, false⟩)
  | _ => (value, s.exhausted)

/-- The extraction of a floating-point number. -/
def getFloat (F : FloatType) (s : InStream) (value : Flt ℚ) : Flt ℚ × InStream :=
  match s.next with
  | none => (value, s.exhausted)
  | some text =>
      let (accumulated, rest) := scanFloat text
      let (parsed, stop) := strtof F accumulated
      if stop = 0 ∨ stop < accumulated.length then (.fin 0, ⟨rest, true, rest.isEmpty⟩)
      else
        match parsed with
        | .posInf => (.fin F.max, ⟨rest, true, rest.isEmpty⟩)
        | .negInf => (.fin (-F.max), ⟨rest, true, rest.isEmpty⟩)
        | parsed => (parsed, ⟨rest, false, rest.isEmpty⟩)

/-- The extraction of an unsigned integer of 64 bits, which may have a sign. -/
def getUInt64 (s : InStream) (value : UInt64) : UInt64 × InStream :=
  match s.next with
  | none => (value, s.exhausted)
  | some text =>
      let sign := scanSign text
      let digits := scanDigits sign.2
      if digits.1 = [] then (0, ⟨digits.2, true, digits.2.isEmpty⟩)
      else if 2 ^ 64 ≤ digitsValue 10 digits.1 then
        (UInt64.ofNat (2 ^ 64 - 1), ⟨digits.2, true, digits.2.isEmpty⟩)
      else
        (if sign.1 = ['-'] then -UInt64.ofNat (digitsValue 10 digits.1)
          else UInt64.ofNat (digitsValue 10 digits.1), ⟨digits.2, false, digits.2.isEmpty⟩)

end InStream

/-! ### What follows a number -/

/-- The text starts with no character that could continue a number. -/
def Delimits (tail : Text) : Prop :=
  ∀ c ∈ tail.head?, c.isDigit = false ∧ c ≠ '+' ∧ c ≠ '-' ∧ c ≠ '.' ∧ c ≠ 'e' ∧ c ≠ 'E'

section Append

variable {tail : Text} (h : Delimits tail)

include h

theorem scanSign_append (s : Text) :
  scanSign (s ++ tail) = ((scanSign s).1, (scanSign s).2 ++ tail)
  := by
  rcases s with _ | ⟨c, s⟩
  · rcases tail with _ | ⟨d, tail⟩
    · rfl
    · obtain ⟨-, hplus, hminus, -⟩ := h d rfl
      simp [scanSign, hplus, hminus]
  · rw [List.cons_append, scanSign, scanSign]
    split <;> rfl

theorem scanDigits_append (s : Text) :
  scanDigits (s ++ tail) = ((scanDigits s).1, (scanDigits s).2 ++ tail)
  := by
  have htake : tail.takeWhile Char.isDigit = [] := by
    rcases tail with _ | ⟨d, tail⟩
    · rfl
    · apply List.takeWhile_cons_of_neg
      simp [(h d rfl).1]
  have hdrop : tail.dropWhile Char.isDigit = tail := by
    rcases tail with _ | ⟨d, tail⟩
    · rfl
    · apply List.dropWhile_cons_of_neg
      simp [(h d rfl).1]
  induction s with
  | nil =>
      rw [List.nil_append, scanDigits, htake, hdrop]
      rfl
  | cons c s ih =>
      rw [scanDigits, Prod.mk.injEq] at ih
      by_cases hc : c.isDigit = true
      · simp [scanDigits, hc, ih.1, ih.2]
      · simp [scanDigits, hc]

theorem scanFraction_append (s : Text) :
  scanFraction (s ++ tail) = ((scanFraction s).1, (scanFraction s).2 ++ tail)
  := by
  rcases s with _ | ⟨c, s⟩
  · rcases tail with _ | ⟨d, tail⟩
    · rfl
    · obtain ⟨-, -, -, hpoint, -⟩ := h d rfl
      simp [scanFraction, hpoint]
  · rw [List.cons_append, scanFraction, scanFraction, scanDigits_append h]
    split <;> rfl

theorem scanExponent_append (s : Text) :
  scanExponent (s ++ tail) = ((scanExponent s).1, (scanExponent s).2 ++ tail)
  := by
  rcases s with _ | ⟨c, s⟩
  · rcases tail with _ | ⟨d, tail⟩
    · rfl
    · obtain ⟨-, -, -, -, he, hE⟩ := h d rfl
      simp [scanExponent, he, hE]
  · rw [List.cons_append, scanExponent, scanExponent, scanSign_append h, scanDigits_append h]
    split <;> rfl

theorem scanMantissa_append (s : Text) :
  scanMantissa (s ++ tail) = ((scanMantissa s).1, (scanMantissa s).2 ++ tail)
  := by
  rw [scanMantissa, scanDigits_append h, scanFraction_append h, scanMantissa]

/-- Extraction accumulates the same part of a text before a text that does not continue it. -/
theorem scanFloat_append (s : Text) :
  scanFloat (s ++ tail) = ((scanFloat s).1, (scanFloat s).2 ++ tail)
  := by
  rw [scanFloat, scanFloat]
  simp only [scanSign_append h, scanMantissa_append h, scanExponent_append h]
  split <;> rfl

end Append

/-! ### What `strtof` reads as a whole -/

/-- The text is a number without sign in hexadecimal. -/
def IsHex (s : Text) : Prop :=
  (scanHex (scanSign (s.dropWhile isSpace)).2).isSome = true

/-- A text that begins with a letter that is not a digit or a point has no mantissa. -/
theorem scanMantissa_of_head {c : Char} {rest : Text} (hdigit : c.isDigit = false)
    (hpoint : c ≠ '.') :
  scanMantissa (c :: rest) = ([], c :: rest)
  := by
  simp [scanMantissa, scanDigits, scanFraction, hdigit, hpoint]

/-- What is read as a decimal number up to its end is accumulated up to its end. -/
theorem scanExponent_of_scanDecimal {s : Text} {x : ℚ} (h : scanDecimal s = some (x, [])) :
  (scanMantissa s).1.any Char.isDigit = true ∧ (scanExponent (scanMantissa s).2).2 = []
  := by
  rw [scanDecimal] at h
  split at h
  · rename_i hdigit
    use hdigit
    rw [Option.some.injEq, Prod.mk.injEq] at h
    obtain ⟨-, hrest⟩ := h
    rw [scanFullExponent] at hrest
    split at hrest
    · apply hrest
    · simp only at hrest
      rw [hrest]
      rfl
  · cases h

theorem scanSign_fst_append_snd (s : Text) :
  (scanSign s).1 ++ (scanSign s).2 = s
  := by
  rcases s with _ | ⟨c, s⟩
  · rfl
  · rw [scanSign]
    split <;> rfl

theorem scanDigits_fst_append_snd (s : Text) :
  (scanDigits s).1 ++ (scanDigits s).2 = s
  := List.takeWhile_append_dropWhile

theorem scanMantissa_fst_append_snd (s : Text) :
  (scanMantissa s).1 ++ (scanMantissa s).2 = s
  := by
  have hfraction : ∀ t, (scanFraction t).1 ++ (scanFraction t).2 = t := by
    intro t
    rcases t with _ | ⟨c, t⟩
    · rfl
    · rw [scanFraction]
      split
      · rename_i hc
        rw [hc, List.cons_append, scanDigits_fst_append_snd]
      · rfl
  rw [scanMantissa, List.append_assoc, hfraction, scanDigits_fst_append_snd]

theorem scanExponent_fst_append_snd (s : Text) :
  (scanExponent s).1 ++ (scanExponent s).2 = s
  := by
  rcases s with _ | ⟨c, s⟩
  · rfl
  · rw [scanExponent]
    split
    · rw [List.cons_append, List.append_assoc, scanDigits_fst_append_snd, scanSign_fst_append_snd]
    · rfl

/-- Extraction accumulates the beginning of a text. -/
theorem scanFloat_fst_append_snd (s : Text) :
  (scanFloat s).1 ++ (scanFloat s).2 = s
  := by
  rw [scanFloat]
  split
  · rw [List.append_assoc, List.append_assoc, scanExponent_fst_append_snd,
      scanMantissa_fst_append_snd, scanSign_fst_append_snd]
  · rw [List.append_assoc, scanMantissa_fst_append_snd, scanSign_fst_append_snd]

/-- A digit has no lower case of its own. -/
theorem toLower_of_isDigit {c : Char} (h : c.isDigit = true) :
  c.toLower = c
  := by
  simp only [Char.isDigit, Bool.and_eq_true, decide_eq_true_eq] at h
  apply dif_neg
  intro hc
  apply absurd (UInt32.le_trans hc.1 h.2) (by decide)

/-- A text that starts with a word starts with a letter of either case. -/
theorem head_of_startsWith {d : Char} {word : Text} {c : Char} {rest : Text}
    (h : startsWith (d :: word) (c :: rest) = true) (hdigit : d.isDigit = false)
    (hpoint : d ≠ '.') :
  c.isDigit = false ∧ c ≠ '.'
  := by
  have hlower : c.toLower = d := by
    simp only [startsWith, List.length_cons, List.take_succ_cons, List.map_cons,
      decide_eq_true_eq, List.cons.injEq] at h
    apply h.1
  constructor
  · rcases hc : c.isDigit with _ | _
    · rfl
    · rw [toLower_of_isDigit hc] at hlower
      rw [hlower, hdigit] at hc
      cases hc
  · rintro rfl
    apply hpoint
    rw [← hlower]
    decide

/-- If `strtof` reads the whole text, then it is hexadecimal; or extraction accumulates all that
follows the white space; or it accumulates a sign only, and a letter follows. -/
theorem scanFloat_of_strtof {F : FloatType} {s : Text} (hne : s ≠ [])
    (hstop : (strtof F s).2 ≠ 0 ∧ s.length ≤ (strtof F s).2) :
  IsHex s ∨ (scanFloat (s.dropWhile isSpace)).2 = []
    ∨ ∃ c rest, (scanSign (s.dropWhile isSpace)).2 = c :: rest ∧ c.isDigit = false ∧ c ≠ '.'
  := by
  rw [strtof] at hstop
  rcases hnumber : scanNumber F (scanSign (s.dropWhile isSpace)).2 with _ | ⟨value, rest⟩
  · rw [hnumber] at hstop
    apply absurd rfl hstop.1
  · rw [hnumber] at hstop
    simp only at hstop
    have hpos := List.length_pos_iff.mpr hne
    have hrest : rest = [] := by
      rw [← List.length_eq_zero_iff]
      omega
    subst hrest
    rw [scanNumber] at hnumber
    rcases hhex : scanHex (scanSign (s.dropWhile isSpace)).2 with _ | _
    · right
      rw [hhex] at hnumber
      simp only at hnumber
      rcases hdec : scanDecimal (scanSign (s.dropWhile isSpace)).2 with _ | ⟨x, rest⟩
      · right
        rw [hdec] at hnumber
        simp only at hnumber
        rcases hbody : (scanSign (s.dropWhile isSpace)).2 with _ | ⟨c, rest⟩
        · rw [hbody] at hnumber
          revert hnumber
          simp [scanInfinity, scanNan, startsWith]
        · use c, rest, rfl
          rw [hbody] at hnumber
          rcases hinf : scanInfinity (c :: rest) with _ | rest'
          · rw [hinf] at hnumber
            simp only [Option.map_eq_some_iff] at hnumber
            obtain ⟨rest', hnan, -⟩ := hnumber
            rw [scanNan] at hnan
            split at hnan
            · rename_i hword
              apply head_of_startsWith (d := 'n') hword (by decide) (by decide)
            · cases hnan
          · rw [scanInfinity] at hinf
            split at hinf
            · rename_i hword
              apply head_of_startsWith (d := 'i') hword (by decide) (by decide)
            · split at hinf
              · rename_i hword
                apply head_of_startsWith (d := 'i') hword (by decide) (by decide)
              · cases hinf
      · left
        rw [hdec] at hnumber
        simp only [Option.some.injEq, Prod.mk.injEq] at hnumber
        obtain ⟨-, rfl⟩ := hnumber
        obtain ⟨hdigit, hexponent⟩ := scanExponent_of_scanDecimal hdec
        rw [scanFloat]
        simp only [if_pos hdigit]
        apply hexponent
    · left
      rw [IsHex, hhex]
      rfl

/-! ### Extraction of a number -/

/-- White space delimits a number. -/
theorem delimits_of_isSpace {c : Char} (h : isSpace c = true) :
  c.isDigit = false ∧ c ≠ '+' ∧ c ≠ '-' ∧ c ≠ '.' ∧ c ≠ 'e' ∧ c ≠ 'E'
  := by
  simp only [isSpace, Bool.or_eq_true, decide_eq_true_eq] at h
  rcases h with ((((rfl | rfl) | rfl) | rfl) | rfl) | rfl <;> decide

/-- White space before a text that delimits a number delimits it as well. -/
theorem Delimits.append_space {tail space : Text} (h : Delimits tail)
    (hspace : ∀ c ∈ space, isSpace c = true) :
  Delimits (space ++ tail)
  := by
  rcases space with _ | ⟨d, space⟩
  · apply h
  · intro c hc
    cases hc
    apply delimits_of_isSpace (hspace d (by simp))

/-- `strtof` finds no number in a sign. -/
theorem strtof_scanSign (F : FloatType) (s : Text) :
  strtof F (scanSign s).1 = (.fin 0, 0)
  := by
  have hsign : (scanSign s).1 = [] ∨ (scanSign s).1 = ['+'] ∨ (scanSign s).1 = ['-'] := by
    rcases s with _ | ⟨c, s⟩
    · left
      rfl
    · rw [scanSign]
      split
      · rename_i hc
        rcases hc with rfl | rfl
        · right
          left
          rfl
        · right
          right
          rfl
      · left
        rfl
  rcases hsign with hs | hs | hs <;> rw [hs] <;> rfl

/-- White space does not count for `strtof`. -/
theorem strtof_dropWhile {F : FloatType} {s : Text} (hne : s ≠ [])
    (hstop : (strtof F s).2 ≠ 0 ∧ s.length ≤ (strtof F s).2) :
  s.dropWhile isSpace ≠ [] ∧ (strtof F (s.dropWhile isSpace)).1 = (strtof F s).1
    ∧ (strtof F (s.dropWhile isSpace)).2 = (s.dropWhile isSpace).length
  := by
  have hdrop : (s.dropWhile isSpace).dropWhile isSpace = s.dropWhile isSpace :=
    List.dropWhile_idempotent isSpace s
  have hpos := List.length_pos_iff.mpr hne
  rw [strtof] at hstop
  rw [strtof, strtof, hdrop]
  rcases hnumber : scanNumber F (scanSign (s.dropWhile isSpace)).2 with _ | ⟨value, rest⟩
  · rw [hnumber] at hstop
    apply absurd rfl hstop.1
  · rw [hnumber] at hstop
    simp only at hstop ⊢
    have hrest : rest.length = 0 := by omega
    refine ⟨?_, trivial, by omega⟩
    intro hnil
    rw [hnil] at hnumber
    cases hnumber

namespace InStream

/-- The text that a good stream extracts from. -/
theorem next_eq_some {text : Text} (h : text.dropWhile isSpace ≠ []) :
  (InStream.mk text false false).next = some (text.dropWhile isSpace)
  := by
  simp [next, h]

/-- Nothing can be extracted from white space. -/
theorem next_eq_none {text : Text} (h : ∀ c ∈ text, isSpace c = true) :
  (InStream.mk text false false).next = none
  := by
  simp [next, List.dropWhile_eq_nil_iff.mpr h]

/-- Nothing is extracted from a stream that has failed. -/
theorem getFloat_of_fail (F : FloatType) {s : InStream} (h : s.fail = true) (value : Flt ℚ) :
  (s.getFloat F value).2.fail = true
  := by
  simp [getFloat, next, exhausted, h]

theorem getChar_of_fail {s : InStream} (h : s.fail = true) (value : Char) :
  (s.getChar value).2.fail = true
  := by
  simp [getChar, next, exhausted, h]

/-- The extraction of a number fails in white space up to the end. -/
theorem getFloat_of_blank (F : FloatType) {text : Text} (h : ∀ c ∈ text, isSpace c = true)
    (value : Flt ℚ) :
  ((InStream.mk text false false).getFloat F value).2.fail = true
  := by
  simp [getFloat, next_eq_none h, exhausted]

/-- The extraction of a number fails where no digit and no point follows the white space and a
sign. -/
theorem getFloat_of_head (F : FloatType) {text : Text} (c : Char) (rest : Text)
    (h : (scanSign (text.dropWhile isSpace)).2 = c :: rest) (hdigit : c.isDigit = false)
    (hpoint : c ≠ '.') (value : Flt ℚ) :
  ((InStream.mk text false false).getFloat F value).2.fail = true
  := by
  have hne : text.dropWhile isSpace ≠ [] := by
    intro hnil
    rw [hnil] at h
    cases h
  have hacc : scanFloat (text.dropWhile isSpace)
      = ((scanSign (text.dropWhile isSpace)).1, c :: rest) := by
    rw [scanFloat, h, scanMantissa_of_head hdigit hpoint]
    simp
  rw [getFloat, next_eq_some hne]
  simp only [hacc, strtof_scanSign, true_or, if_true]

/-- A text that is accumulated as a whole, and that `strtof` reads as a whole, is extracted when
its value is not infinite, and else its extraction fails. -/
theorem getFloat_append (F : FloatType) {left text right : Text}
    (hleft : ∀ c ∈ left, isSpace c = true) (hne : text ≠ [])
    (hhead : text.dropWhile isSpace = text) (hacc : (scanFloat text).2 = [])
    (hstop : (strtof F text).2 = text.length) (hright : Delimits right) (value : Flt ℚ) :
  ((strtof F text).1 ≠ .posInf ∧ (strtof F text).1 ≠ .negInf →
      (InStream.mk (left ++ (text ++ right)) false false).getFloat F value
        = ((strtof F text).1, ⟨right, false, right.isEmpty⟩))
    ∧ ((strtof F text).1 = .posInf ∨ (strtof F text).1 = .negInf →
      ((InStream.mk (left ++ (text ++ right)) false false).getFloat F value).2.fail = true)
  := by
  have hdrop : (left ++ (text ++ right)).dropWhile isSpace = text ++ right := by
    rw [List.dropWhile_append_of_pos hleft, List.dropWhile_append, hhead,
      if_neg (by simpa using hne)]
  have hall : scanFloat (text ++ right) = (text, right) := by
    have hfst := scanFloat_fst_append_snd text
    rw [hacc, List.append_nil] at hfst
    rw [scanFloat_append hright, hfst, hacc, List.nil_append]
  have hpos := List.length_pos_iff.mpr hne
  have hfull : ¬ ((strtof F text).2 = 0 ∨ (strtof F text).2 < text.length) := by omega
  rw [getFloat, next_eq_some (by rw [hdrop]; simp [hne]), hdrop]
  simp only [hall, if_neg hfull]
  constructor
  · rintro ⟨hpos, hneg⟩
    rcases hv : (strtof F text).1 with x | _ | _ | _
    · rfl
    · rfl
    · apply absurd hv hpos
    · apply absurd hv hneg
  · rintro (hv | hv)
    · rw [hv]
    · rw [hv]

/-- Digits before a text that delimits them are extracted as an unsigned integer within the range,
and else the extraction fails. -/
theorem getUInt64_append {left digits right : Text} (hleft : ∀ c ∈ left, isSpace c = true)
    (hne : digits ≠ []) (hdigits : ∀ c ∈ digits, c.isDigit = true) (hright : Delimits right)
    (value : UInt64) :
  (digitsValue 10 digits < 2 ^ 64 →
      (InStream.mk (left ++ (digits ++ right)) false false).getUInt64 value
        = (UInt64.ofNat (digitsValue 10 digits), ⟨right, false, right.isEmpty⟩))
    ∧ (2 ^ 64 ≤ digitsValue 10 digits →
      ((InStream.mk (left ++ (digits ++ right)) false false).getUInt64 value).2.fail = true)
  := by
  have hscan : scanDigits digits = (digits, []) := by
    rw [scanDigits, List.takeWhile_eq_self_iff.mpr hdigits, List.dropWhile_eq_nil_iff.mpr hdigits]
  have hsign : scanSign digits = ([], digits) := by
    rcases digits with _ | ⟨c, digits⟩
    · apply absurd rfl hne
    · rw [scanSign, if_neg]
      rintro (rfl | rfl)
      · apply absurd (hdigits '+' (by simp)) (by decide)
      · apply absurd (hdigits '-' (by simp)) (by decide)
  have hdrop : (left ++ (digits ++ right)).dropWhile isSpace = digits ++ right := by
    rcases digits with _ | ⟨c, digits⟩
    · apply absurd rfl hne
    · rw [List.dropWhile_append_of_pos hleft, List.cons_append, List.dropWhile_cons_of_neg]
      intro hspace
      have hdigit := (delimits_of_isSpace hspace).1
      rw [hdigits c (by simp)] at hdigit
      cases hdigit
  rw [getUInt64, next_eq_some (by rw [hdrop]; simp [hne]), hdrop]
  simp only [scanSign_append hright, hsign, scanDigits_append hright, hscan, if_neg hne]
  constructor
  · intro hlt
    rw [if_neg (by omega), if_neg (by simp)]
    simp
  · intro hle
    rw [if_pos hle]

/-- The extraction of an unsigned integer fails where no digit follows the white space and a
sign. -/
theorem getUInt64_of_head {text : Text} (c : Char) (rest : Text)
    (h : (scanSign (text.dropWhile isSpace)).2 = c :: rest) (hdigit : c.isDigit = false)
    (value : UInt64) :
  ((InStream.mk text false false).getUInt64 value).2.fail = true
  := by
  have hne : text.dropWhile isSpace ≠ [] := by
    intro hnil
    rw [hnil] at h
    cases h
  have hdigits : (scanDigits (c :: rest)).1 = [] := by simp [scanDigits, hdigit]
  rw [getUInt64, next_eq_some hne]
  simp only [h, hdigits, if_true]

end InStream
