import PipeAI.Text.Numbers

/-!
# Numerals

What the C library reads as a floating-point number, as a grammar: a numeral is white space, a sign
and a number; a number is decimal or hexadecimal, with an optional point and an optional exponent,
or a word for an infinity or for what is not a number.

`strtof` reads the whole of a text exactly when the text is a numeral (`strtof_whole_iff`): what is
left of the text by a scan of a part of a number is what follows that part in the grammar.
-/

/-! ### The grammar -/

/-- The text is empty or a sign. -/
def IsSign (s : Text) : Prop :=
  s = [] ∨ s = ['+'] ∨ s = ['-']

/-- The text consists of digits, with or without a point. -/
inductive IsMantissa (digit : Char → Bool) : Text → Prop where
  | whole {digits : Text} (hall : ∀ c ∈ digits, digit c = true) (hne : digits ≠ []) :
      IsMantissa digit digits
  | pointed {digits fraction : Text} (hall : ∀ c ∈ digits ++ fraction, digit c = true)
      (hne : digits ++ fraction ≠ []) : IsMantissa digit (digits ++ '.' :: fraction)

/-- The text is empty, or a mark before an optional sign and decimal digits. -/
inductive IsExponent (lower upper : Char) : Text → Prop where
  | none : IsExponent lower upper []
  | marked {mark : Char} {sign digits : Text} (hmark : mark = lower ∨ mark = upper)
      (hsign : IsSign sign) (hall : ∀ c ∈ digits, c.isDigit = true) (hne : digits ≠ []) :
      IsExponent lower upper (mark :: (sign ++ digits))

/-- A number without sign. -/
inductive IsNumber : Text → Prop where
  | decimal {mantissa exponent : Text} (hm : IsMantissa Char.isDigit mantissa)
      (he : IsExponent 'e' 'E' exponent) : IsNumber (mantissa ++ exponent)
  | hexadecimal {x : Char} {mantissa exponent : Text} (hx : x = 'x' ∨ x = 'X')
      (hm : IsMantissa isHexDigit mantissa) (he : IsExponent 'p' 'P' exponent) :
      IsNumber ('0' :: x :: (mantissa ++ exponent))
  | infinity {word : Text} (hword : word.map Char.toLower = "inf".toList
      ∨ word.map Char.toLower = "infinity".toList) : IsNumber word
  | nan {word : Text} (hword : word.map Char.toLower = "nan".toList) : IsNumber word
  | described {word chars : Text} (hword : word.map Char.toLower = "nan".toList)
      (hall : ∀ c ∈ chars, (c.isAlphanum || c = '_') = true) :
      IsNumber (word ++ '(' :: (chars ++ [')']))

/-- A number with an optional sign, after white space. -/
inductive IsNumeral : Text → Prop where
  | mk {space sign number : Text} (hspace : ∀ c ∈ space, isSpace c = true) (hsign : IsSign sign)
      (hnumber : IsNumber number) : IsNumeral (space ++ (sign ++ number))

/-! ### Digits and signs -/

/-- The longest part that satisfies `p` ends where a character does not satisfy it. -/
theorem span_append {p : Char → Bool} {part : Text} (hpart : ∀ c ∈ part, p c = true) (tail : Text)
    (htail : ∀ c ∈ tail.head?, p c = false) :
  (part ++ tail).takeWhile p = part ∧ (part ++ tail).dropWhile p = tail
  := by
  rw [List.takeWhile_append_of_pos hpart, List.dropWhile_append_of_pos hpart]
  rcases tail with _ | ⟨d, tail⟩
  · simp
  · have hd := htail d rfl
    simp [hd]

/-- A digit is no other character. -/
theorem ne_of_isDigit {c d : Char} (h : c.isDigit = true) (hd : d.isDigit = false) :
  c ≠ d
  := by
  rintro rfl
  rw [h] at hd
  cases hd

theorem isSign_scanSign (s : Text) :
  IsSign (scanSign s).1
  := by
  rcases s with _ | ⟨c, s⟩
  · left
    rfl
  · rw [scanSign]
    split
    · rename_i hc
      right
      rcases hc with rfl | rfl
      · left
        rfl
      · right
        rfl
    · left
      rfl

/-- A sign is read before what does not begin with a sign. -/
theorem scanSign_append_of_isSign {sign tail : Text} (h : IsSign sign)
    (htail : ∀ c ∈ tail.head?, c ≠ '+' ∧ c ≠ '-') :
  scanSign (sign ++ tail) = (sign, tail)
  := by
  rcases h with rfl | rfl | rfl
  · rcases tail with _ | ⟨d, tail⟩
    · rfl
    · have hd := htail d rfl
      simp [scanSign, hd.1, hd.2]
  · rfl
  · rfl

/-! ### Mantissas -/

/-- Digits with an optional point, and the rest. -/
def scanPointed (digit : Char → Bool) (s : Text) : Text × Text :=
  match s.dropWhile digit with
  | [] => (s.takeWhile digit, [])
  | c :: rest =>
      if c = '.' then (s.takeWhile digit ++ '.' :: rest.takeWhile digit, rest.dropWhile digit)
      else (s.takeWhile digit, c :: rest)

theorem scanMantissa_eq_scanPointed (s : Text) :
  scanMantissa s = scanPointed Char.isDigit s
  := by
  rw [scanMantissa, scanPointed, scanDigits]
  simp only
  rcases s.dropWhile Char.isDigit with _ | ⟨c, rest⟩
  · simp [scanFraction]
  · rw [scanFraction]
    split <;> simp [scanDigits, *]

theorem scanHexMantissa_eq_scanPointed (s : Text) :
  scanHexMantissa s = scanPointed isHexDigit s
  := rfl

theorem scanPointed_fst_append_snd (digit : Char → Bool) (s : Text) :
  (scanPointed digit s).1 ++ (scanPointed digit s).2 = s
  := by
  have hs := List.takeWhile_append_dropWhile (p := digit) (l := s)
  rw [scanPointed]
  rcases hrest : s.dropWhile digit with _ | ⟨c, rest⟩
  · rw [hrest] at hs
    apply hs
  · rw [hrest] at hs
    simp only
    split
    · rename_i hc
      subst hc
      rw [List.append_assoc, List.cons_append, List.takeWhile_append_dropWhile]
      apply hs
    · apply hs

section Mantissa

variable {digit : Char → Bool} (hpoint : digit '.' = false)

include hpoint

/-- What is read as digits, if there is one, is a mantissa. -/
theorem isMantissa_scanPointed {s : Text} (h : (scanPointed digit s).1.any digit = true) :
  IsMantissa digit (scanPointed digit s).1
  := by
  have hwhole : (s.takeWhile digit).any digit = true → IsMantissa digit (s.takeWhile digit) := by
    intro hany
    apply IsMantissa.whole
    · intro c hc
      apply List.mem_takeWhile_imp hc
    · intro hnil
      rw [hnil] at hany
      cases hany
  rw [scanPointed] at h ⊢
  rcases hrest : s.dropWhile digit with _ | ⟨c, rest⟩
  · rw [hrest] at h
    apply hwhole h
  · rw [hrest] at h
    simp only at h ⊢
    split at h
    · rename_i hc
      rw [if_pos hc]
      apply IsMantissa.pointed
      · intro d hd
        rw [List.mem_append] at hd
        rcases hd with hd | hd
        · apply List.mem_takeWhile_imp hd
        · apply List.mem_takeWhile_imp hd
      · intro hnil
        rw [List.append_eq_nil_iff] at hnil
        rw [hnil.1, hnil.2] at h
        simp [hpoint] at h
    · rename_i hc
      rw [if_neg hc]
      apply hwhole h

/-- A mantissa is read before what does not continue it. -/
theorem IsMantissa.scanPointed_append {mantissa : Text} (h : IsMantissa digit mantissa)
    (tail : Text) (htail : ∀ c ∈ tail.head?, digit c = false ∧ c ≠ '.') :
  scanPointed digit (mantissa ++ tail) = (mantissa, tail) ∧ mantissa.any digit = true
  := by
  have hstop : ∀ c ∈ tail.head?, digit c = false := fun c hc => (htail c hc).1
  cases h with
  | whole hall hne =>
      obtain ⟨htake, hdrop⟩ := span_append hall tail hstop
      constructor
      · rw [scanPointed, htake, hdrop]
        rcases tail with _ | ⟨d, tail⟩
        · rfl
        · simp [(htail d rfl).2]
      · obtain ⟨c, hc⟩ := List.exists_mem_of_ne_nil _ hne
        rw [List.any_eq_true]
        use c, hc, hall c hc
  | @pointed digits fraction hall hne =>
      have hdigits : ∀ c ∈ digits, digit c = true :=
        fun c hc => hall c (List.mem_append_left _ hc)
      have hfraction : ∀ c ∈ fraction, digit c = true :=
        fun c hc => hall c (List.mem_append_right _ hc)
      obtain ⟨htake, hdrop⟩ := span_append hdigits ('.' :: (fraction ++ tail)) (by
        rintro _ ⟨⟩
        apply hpoint)
      obtain ⟨htake', hdrop'⟩ := span_append hfraction tail hstop
      constructor
      · rw [List.append_assoc, List.cons_append, scanPointed, htake, hdrop]
        simp [htake', hdrop']
      · obtain ⟨c, hc⟩ := List.exists_mem_of_ne_nil _ hne
        rw [List.any_eq_true]
        use c
        constructor
        · rw [List.mem_append] at hc ⊢
          exact hc.imp_right (List.mem_cons_of_mem _)
        · apply hall c hc

end Mantissa

theorem IsMantissa.mem {digit : Char → Bool} {s : Text} (h : IsMantissa digit s) {c : Char}
    (hc : c ∈ s) :
  digit c = true ∨ c = '.'
  := by
  cases h with
  | whole hall hne =>
      left
      apply hall c hc
  | pointed hall hne =>
      rw [List.mem_append, List.mem_cons] at hc
      rcases hc with hc | rfl | hc
      · left
        apply hall c (List.mem_append_left _ hc)
      · right
        rfl
      · left
        apply hall c (List.mem_append_right _ hc)

/-! ### Exponents -/

/-- A mark with an exponent, where it has a digit, and the rest. -/
def scanMarked (lower upper : Char) : Text → Text × Text
  | [] => ([], [])
  | c :: rest =>
      if (c = lower ∨ c = upper) ∧ (scanDigits (scanSign rest).2).1 ≠ [] then
        (c :: ((scanSign rest).1 ++ (scanDigits (scanSign rest).2).1),
          (scanDigits (scanSign rest).2).2)
      else ([], c :: rest)

theorem scanHexExponent_eq_scanMarked (s : Text) :
  scanHexExponent s = scanMarked 'p' 'P' s
  := by
  cases s <;> rfl

theorem IsSign.any_isDigit {s : Text} (h : IsSign s) :
  s.any Char.isDigit = false
  := by
  rcases h with rfl | rfl | rfl <;> decide

theorem any_scanDigits_iff (s : Text) :
  (scanDigits s).1.any Char.isDigit = true ↔ (scanDigits s).1 ≠ []
  := by
  constructor
  · intro hany hnil
    rw [hnil] at hany
    cases hany
  · intro hne
    obtain ⟨c, hc⟩ := List.exists_mem_of_ne_nil _ hne
    rw [List.any_eq_true]
    use c, hc, List.mem_takeWhile_imp hc

theorem scanFullExponent_eq_scanMarked (s : Text) :
  scanFullExponent s = scanMarked 'e' 'E' s
  := by
  rcases s with _ | ⟨c, rest⟩
  · rfl
  · rw [scanFullExponent, scanExponent, scanMarked]
    by_cases hc : c = 'e' ∨ c = 'E'
    · have hdigit : c.isDigit = false := by rcases hc with rfl | rfl <;> decide
      rw [if_pos hc]
      simp only [List.any_cons, List.any_append, hdigit, (isSign_scanSign rest).any_isDigit,
        Bool.false_or, any_scanDigits_iff, hc, true_and]
    · simp [hc]

theorem scanMarked_fst_append_snd (lower upper : Char) (s : Text) :
  (scanMarked lower upper s).1 ++ (scanMarked lower upper s).2 = s
  := by
  rcases s with _ | ⟨c, s⟩
  · rfl
  · rw [scanMarked]
    split
    · rw [List.cons_append, List.append_assoc, scanDigits_fst_append_snd, scanSign_fst_append_snd]
    · rfl

theorem isExponent_scanMarked (lower upper : Char) (s : Text) :
  IsExponent lower upper (scanMarked lower upper s).1
  := by
  rcases s with _ | ⟨c, s⟩
  · apply IsExponent.none
  · rw [scanMarked]
    split
    · rename_i hc
      apply IsExponent.marked hc.1 (isSign_scanSign s)
      · intro d hd
        apply List.mem_takeWhile_imp hd
      · apply hc.2
    · apply IsExponent.none

/-- An exponent is read up to its end. -/
theorem IsExponent.scanMarked_eq {lower upper : Char} {s : Text} (h : IsExponent lower upper s) :
  scanMarked lower upper s = (s, [])
  := by
  cases h with
  | none => rfl
  | @marked mark sign digits hmark hsign hall hne =>
      have hscan : scanSign (sign ++ digits) = (sign, digits) := by
        apply scanSign_append_of_isSign hsign
        intro c hc
        have hdigit := hall c (List.mem_of_mem_head? hc)
        exact ⟨ne_of_isDigit hdigit (by decide), ne_of_isDigit hdigit (by decide)⟩
      obtain ⟨htake, hdrop⟩ := span_append hall [] (by
        intro c hc
        cases hc)
      rw [List.append_nil] at htake hdrop
      rw [scanMarked, hscan]
      simp only [scanDigits, htake, hdrop]
      rw [if_pos ⟨hmark, hne⟩]

theorem IsExponent.mem {lower upper : Char} {s : Text} (h : IsExponent lower upper s) {c : Char}
    (hc : c ∈ s) :
  c = lower ∨ c = upper ∨ c = '+' ∨ c = '-' ∨ c.isDigit = true
  := by
  cases h with
  | none => cases hc
  | marked hmark hsign hall hne =>
      rw [List.mem_cons, List.mem_append] at hc
      rcases hc with rfl | hc | hc
      · rw [← or_assoc]
        left
        apply hmark
      · right
        right
        rcases hsign with rfl | rfl | rfl
        · cases hc
        · left
          apply List.mem_singleton.mp hc
        · right
          left
          apply List.mem_singleton.mp hc
      · right
        right
        right
        right
        apply hall c hc

/-! ### Words -/

/-- A word in letters of either case is read up to its end. -/
theorem startsWith_append_of_map {word s : Text} (h : s.map Char.toLower = word) (tail : Text) :
  startsWith word (s ++ tail) = true ∧ (s ++ tail).drop word.length = tail
  := by
  have hlength : word.length = s.length := by rw [← h, List.length_map]
  constructor
  · rw [startsWith, hlength, List.take_left, h, decide_eq_true_eq]
  · rw [hlength, List.drop_left]

theorem map_take_of_startsWith {word s : Text} (h : startsWith word s = true) :
  (s.take word.length).map Char.toLower = word
  := by
  rw [startsWith, decide_eq_true_eq] at h
  apply h

/-- A text starts with one word only, if words differ in their first letters. -/
theorem exists_cons_of_startsWith {d : Char} {word s : Text} (h : startsWith (d :: word) s = true) :
  ∃ c rest, s = c :: rest ∧ c.toLower = d
  := by
  have hmap := map_take_of_startsWith h
  rcases s with _ | ⟨c, rest⟩
  · cases hmap
  · rw [List.length_cons, List.take_succ_cons, List.map_cons, List.cons.injEq] at hmap
    exact ⟨c, rest, rfl, hmap.1⟩

/-! ### What is read is a number -/

theorem isNumber_of_scanHex {s : Text} {x : ℚ} (h : scanHex s = some (x, [])) :
  IsNumber s
  := by
  rw [scanHex.eq_def] at h
  split at h
  · rename_i mark rest
    split at h
    · rename_i hx
      rw [Option.some.injEq, Prod.mk.injEq, scanHexExponent_eq_scanMarked] at h
      have hmantissa := scanPointed_fst_append_snd isHexDigit rest
      have hexponent := scanMarked_fst_append_snd 'p' 'P' (scanHexMantissa rest).2
      rw [h.2, List.append_nil, scanHexMantissa_eq_scanPointed] at hexponent
      rw [← hexponent] at hmantissa
      rw [← hmantissa]
      apply IsNumber.hexadecimal hx.1
      · apply isMantissa_scanPointed (by decide) hx.2
      · apply isExponent_scanMarked
    · cases h
  · cases h

theorem isNumber_of_scanDecimal {s : Text} {x : ℚ} (h : scanDecimal s = some (x, [])) :
  IsNumber s
  := by
  rw [scanDecimal, scanMantissa_eq_scanPointed, scanFullExponent_eq_scanMarked] at h
  split at h
  · rename_i hany
    rw [Option.some.injEq, Prod.mk.injEq] at h
    have hmantissa := scanPointed_fst_append_snd Char.isDigit s
    have hexponent := scanMarked_fst_append_snd 'e' 'E' (scanPointed Char.isDigit s).2
    rw [h.2, List.append_nil] at hexponent
    rw [← hexponent] at hmantissa
    rw [← hmantissa]
    apply IsNumber.decimal
    · apply isMantissa_scanPointed (by decide) hany
    · apply isExponent_scanMarked
  · cases h

theorem isNumber_of_scanInfinity {s : Text} (h : scanInfinity s = some []) :
  IsNumber s
  := by
  have hwhole : ∀ n, s.drop n = [] → s.take n = s := by
    intro n hdrop
    have hs := List.take_append_drop n s
    rw [hdrop, List.append_nil] at hs
    apply hs
  rw [scanInfinity] at h
  split at h
  · rename_i hword
    have hmap := map_take_of_startsWith hword
    rw [Option.some.injEq] at h
    apply IsNumber.infinity
    right
    rw [← hmap]
    congr 1
    exact (hwhole 8 h).symm
  · split at h
    · rename_i hword
      have hmap := map_take_of_startsWith hword
      rw [Option.some.injEq] at h
      apply IsNumber.infinity
      left
      rw [← hmap]
      congr 1
      exact (hwhole 3 h).symm
    · cases h

theorem isNumber_of_scanNan {s : Text} (h : scanNan s = some []) :
  IsNumber s
  := by
  rw [scanNan] at h
  split at h
  · rename_i hword
    have hmap : (s.take 3).map Char.toLower = "nan".toList := map_take_of_startsWith hword
    have hs := List.take_append_drop 3 s
    split at h
    · rename_i rest hrest
      split at h
      · rename_i rest' hclosed
        rw [Option.some.injEq] at h
        have hchars := List.takeWhile_append_dropWhile
          (p := fun c : Char => c.isAlphanum || c = '_') (l := rest)
        rw [hclosed, h] at hchars
        rw [← hs, hrest, ← hchars]
        apply IsNumber.described hmap
        intro c hc
        apply List.mem_takeWhile_imp hc
      · cases h
    · rw [Option.some.injEq] at h
      rw [h, List.append_nil] at hs
      rw [hs] at hmap
      apply IsNumber.nan hmap
  · cases h

/-- A text that is read to its end is a number. -/
theorem isNumber_of_scanNumber {F : FloatType} {s : Text} {value : Flt ℚ}
    (h : scanNumber F s = some (value, [])) :
  IsNumber s
  := by
  rw [scanNumber] at h
  rcases hhex : scanHex s with _ | ⟨x, rest⟩
  · rw [hhex] at h
    rcases hdecimal : scanDecimal s with _ | ⟨x, rest⟩
    · rw [hdecimal] at h
      rcases hinfinity : scanInfinity s with _ | rest
      · rw [hinfinity] at h
        simp only [Option.map_eq_some_iff, Prod.mk.injEq] at h
        obtain ⟨rest, hnan, -, rfl⟩ := h
        apply isNumber_of_scanNan hnan
      · rw [hinfinity] at h
        cases h
        apply isNumber_of_scanInfinity hinfinity
    · rw [hdecimal] at h
      cases h
      apply isNumber_of_scanDecimal hdecimal
  · rw [hhex] at h
    cases h
    apply isNumber_of_scanHex hhex

/-! ### Numbers are read -/

/-- A text without the mark of a hexadecimal number is not one. -/
theorem scanHex_eq_none {s : Text} (h : ∀ c ∈ s, c ≠ 'x' ∧ c ≠ 'X') :
  scanHex s = none
  := by
  rw [scanHex.eq_def]
  split
  · rename_i x rest
    have hx := h x (by simp)
    simp [hx.1, hx.2]
  · rfl

theorem scanNumber_of_decimal (F : FloatType) {mantissa exponent : Text}
    (hm : IsMantissa Char.isDigit mantissa) (he : IsExponent 'e' 'E' exponent) :
  ∃ value, scanNumber F (mantissa ++ exponent) = some (value, [])
  := by
  have hhex : scanHex (mantissa ++ exponent) = none := by
    apply scanHex_eq_none
    intro c hc
    rw [List.mem_append] at hc
    rcases hc with hc | hc
    · rcases hm.mem hc with hdigit | rfl
      · exact ⟨ne_of_isDigit hdigit (by decide), ne_of_isDigit hdigit (by decide)⟩
      · decide
    · rcases he.mem hc with rfl | rfl | rfl | rfl | hdigit
      · decide
      · decide
      · decide
      · decide
      · exact ⟨ne_of_isDigit hdigit (by decide), ne_of_isDigit hdigit (by decide)⟩
  obtain ⟨hmantissa, hany⟩ := hm.scanPointed_append (by decide) exponent (by
    cases he with
    | none => simp
    | marked hmark hsign hall hne =>
        rintro _ ⟨⟩
        rcases hmark with rfl | rfl <;> decide)
  have hdecimal : ∃ x, scanDecimal (mantissa ++ exponent) = some (x, []) := by
    rw [scanDecimal, scanMantissa_eq_scanPointed, hmantissa, if_pos hany,
      scanFullExponent_eq_scanMarked, he.scanMarked_eq]
    exact ⟨_, rfl⟩
  obtain ⟨x, hx⟩ := hdecimal
  use F.round x
  rw [scanNumber, hhex, hx]

theorem scanNumber_of_hexadecimal (F : FloatType) {x : Char} {mantissa exponent : Text}
    (hx : x = 'x' ∨ x = 'X') (hm : IsMantissa isHexDigit mantissa)
    (he : IsExponent 'p' 'P' exponent) :
  ∃ value, scanNumber F ('0' :: x :: (mantissa ++ exponent)) = some (value, [])
  := by
  obtain ⟨hmantissa, hany⟩ := hm.scanPointed_append (by decide) exponent (by
    cases he with
    | none => simp
    | marked hmark hsign hall hne =>
        rintro _ ⟨⟩
        rcases hmark with rfl | rfl <;> decide)
  have hhex : ∃ value, scanHex ('0' :: x :: (mantissa ++ exponent)) = some (value, []) := by
    rw [scanHex, scanHexMantissa_eq_scanPointed, hmantissa, if_pos ⟨hx, hany⟩,
      scanHexExponent_eq_scanMarked, he.scanMarked_eq]
    exact ⟨_, rfl⟩
  obtain ⟨value, hvalue⟩ := hhex
  use F.round value
  rw [scanNumber, hvalue]

/-- A text that begins with no digit and no point can only be a word. -/
theorem scanNumber_of_head (F : FloatType) {c : Char} {rest : Text} (hdigit : c.isDigit = false)
    (hpoint : c ≠ '.') :
  scanNumber F (c :: rest)
    = ((scanInfinity (c :: rest)).map (fun tail => (.posInf, tail))).or
      ((scanNan (c :: rest)).map (fun tail => (.nan, tail)))
  := by
  have hhex : scanHex (c :: rest) = none := by
    rw [scanHex.eq_def]
    split
    · rename_i heq
      cases heq
      cases hdigit
    · rfl
  have hdecimal : scanDecimal (c :: rest) = none := by
    rw [scanDecimal, scanMantissa_of_head hdigit hpoint]
    rfl
  rw [scanNumber, hhex, hdecimal]
  cases scanInfinity (c :: rest) <;> rfl

theorem scanNumber_of_infinity (F : FloatType) {word : Text}
    (h : word.map Char.toLower = "inf".toList ∨ word.map Char.toLower = "infinity".toList) :
  scanNumber F word = some (.posInf, [])
  := by
  have hinfinity : scanInfinity word = some [] := by
    rcases h with h | h
    · have hlong : ¬ startsWith "infinity".toList word = true := by
        intro hword
        have hmap := congrArg List.length (map_take_of_startsWith hword)
        have hlength := congrArg List.length h
        simp at hmap hlength
        omega
      obtain ⟨hword, hdrop⟩ := startsWith_append_of_map h []
      rw [List.append_nil] at hword hdrop
      rw [scanInfinity, if_neg hlong, if_pos hword]
      congr 1
    · obtain ⟨hword, hdrop⟩ := startsWith_append_of_map h []
      rw [List.append_nil] at hword hdrop
      rw [scanInfinity, if_pos hword]
      congr 1
  have hstart : startsWith ['i'] word = true := by
    rcases word with _ | ⟨c, rest⟩
    · rcases h with h | h <;> cases h
    · rcases h with h | h
      · simp at h
        simp [startsWith, h.1]
      · simp at h
        simp [startsWith, h.1]
  obtain ⟨c, rest, rfl, hc⟩ := exists_cons_of_startsWith hstart
  obtain ⟨hdigit, hpoint⟩ := head_of_startsWith hstart (by decide) (by decide)
  rw [scanNumber_of_head F hdigit hpoint, hinfinity]
  rfl

/-- What begins with the word for what is not a number is no infinity. -/
theorem scanNumber_of_nan (F : FloatType) {word tail : Text}
    (h : word.map Char.toLower = "nan".toList) (hnan : scanNan (word ++ tail) = some []) :
  scanNumber F (word ++ tail) = some (.nan, [])
  := by
  obtain ⟨hword, -⟩ := startsWith_append_of_map h tail
  obtain ⟨c, rest, heq, hc⟩ := exists_cons_of_startsWith (d := 'n') hword
  have hinfinity : scanInfinity (word ++ tail) = none := by
    have hi : ∀ w, ¬ startsWith ('i' :: w) (word ++ tail) = true := by
      intro w hw
      obtain ⟨c', rest', heq', hc'⟩ := exists_cons_of_startsWith hw
      rw [heq, List.cons.injEq] at heq'
      rw [heq'.1, hc'] at hc
      cases hc
    have hlong : ¬ startsWith "infinity".toList (word ++ tail) = true := hi _
    have hshort : ¬ startsWith "inf".toList (word ++ tail) = true := hi _
    rw [scanInfinity, if_neg hlong, if_neg hshort]
  rw [heq] at hword hnan hinfinity ⊢
  obtain ⟨hdigit, hpoint⟩ := head_of_startsWith (d := 'n') hword (by decide) (by decide)
  rw [scanNumber_of_head F hdigit hpoint, hinfinity, hnan]
  rfl

/-- A number is read to its end. -/
theorem IsNumber.scanNumber_eq (F : FloatType) {s : Text} (h : IsNumber s) :
  ∃ value, scanNumber F s = some (value, [])
  := by
  cases h with
  | decimal hm he => apply scanNumber_of_decimal F hm he
  | hexadecimal hx hm he => apply scanNumber_of_hexadecimal F hx hm he
  | infinity hword => exact ⟨_, scanNumber_of_infinity F hword⟩
  | nan hword =>
      obtain ⟨hstart, hdrop⟩ := startsWith_append_of_map hword []
      have hnan : scanNan (s ++ []) = some [] := by
        have hdrop' : (s ++ []).drop 3 = [] := hdrop
        rw [scanNan, if_pos hstart, hdrop']
      have hnumber := scanNumber_of_nan F hword hnan
      rw [List.append_nil] at hnumber
      exact ⟨_, hnumber⟩
  | @described word chars hword hall =>
      obtain ⟨hstart, hdrop⟩ := startsWith_append_of_map hword ('(' :: (chars ++ [')']))
      have hnan : scanNan (word ++ '(' :: (chars ++ [')'])) = some [] := by
        have hdrop' : (word ++ '(' :: (chars ++ [')'])).drop 3 = '(' :: (chars ++ [')']) := hdrop
        obtain ⟨-, hclosed⟩ := span_append hall [')'] (by
          rintro _ ⟨⟩
          decide)
        rw [scanNan, if_pos hstart, hdrop']
        simp only [hclosed]
      exact ⟨_, scanNumber_of_nan F hword hnan⟩

/-! ### Numerals are read as a whole -/

/-- White space has no lower case of its own. -/
theorem toLower_of_isSpace {c : Char} (h : isSpace c = true) :
  c.toLower = c
  := by
  simp only [isSpace, Bool.or_eq_true, decide_eq_true_eq] at h
  rcases h with ((((rfl | rfl) | rfl) | rfl) | rfl) | rfl <;> decide

/-- The first letter of a word is no white space and no sign. -/
theorem head_of_toLower {c : Char} (h : c.toLower = 'i' ∨ c.toLower = 'n') :
  isSpace c = false ∧ c ≠ '+' ∧ c ≠ '-'
  := by
  refine ⟨?_, ?_, ?_⟩
  · rcases hspace : isSpace c with _ | _
    · rfl
    · rw [toLower_of_isSpace hspace] at h
      rcases h with rfl | rfl <;> cases hspace
  · rintro rfl
    revert h
    decide
  · rintro rfl
    revert h
    decide

/-- A number begins with no white space and no sign. -/
theorem IsNumber.head {s : Text} (h : IsNumber s) :
  ∃ c rest, s = c :: rest ∧ isSpace c = false ∧ c ≠ '+' ∧ c ≠ '-'
  := by
  have hword : ∀ (d : Char) (w word tail : Text), word.map Char.toLower = d :: w →
      d = 'i' ∨ d = 'n' →
      ∃ c rest, word ++ tail = c :: rest ∧ isSpace c = false ∧ c ≠ '+' ∧ c ≠ '-' := by
    intro d w word tail hmap hd
    obtain ⟨c, rest, heq, hc⟩ := exists_cons_of_startsWith (startsWith_append_of_map hmap tail).1
    refine ⟨c, rest, heq, head_of_toLower ?_⟩
    rw [hc]
    apply hd
  cases h with
  | @decimal mantissa exponent hm he =>
      rcases mantissa with _ | ⟨c, rest⟩
      · have hany := (hm.scanPointed_append (by decide) [] (by simp)).2
        cases hany
      · refine ⟨c, rest ++ exponent, rfl, ?_⟩
        rcases hm.mem (List.mem_cons_self ..) with hdigit | rfl
        · refine ⟨?_, ?_, ?_⟩
          · rcases hspace : isSpace c with _ | _
            · rfl
            · rw [(delimits_of_isSpace hspace).1] at hdigit
              cases hdigit
          · apply ne_of_isDigit hdigit (by decide)
          · apply ne_of_isDigit hdigit (by decide)
        · decide
  | hexadecimal hx hm he => exact ⟨_, _, rfl, by decide⟩
  | infinity h =>
      rcases h with h | h
      · have hs := hword 'i' _ s [] h (.inl rfl)
        rw [List.append_nil] at hs
        apply hs
      · have hs := hword 'i' _ s [] h (.inl rfl)
        rw [List.append_nil] at hs
        apply hs
  | nan h =>
      have hs := hword 'n' _ s [] h (.inr rfl)
      rw [List.append_nil] at hs
      apply hs
  | described h hall => apply hword 'n' _ _ _ h (.inr rfl)

/-- `strtof` reads a text to its end exactly when it is a numeral. -/
theorem strtof_whole_iff (F : FloatType) (s : Text) :
  ¬ ((strtof F s).2 = 0 ∨ (strtof F s).2 < s.length) ↔ IsNumeral s
  := by
  constructor
  · intro h
    have hspace := List.takeWhile_append_dropWhile (p := isSpace) (l := s)
    rw [strtof] at h
    rcases hnumber : scanNumber F (scanSign (s.dropWhile isSpace)).2 with _ | ⟨value, rest⟩
    · rw [hnumber] at h
      apply absurd (.inl rfl) h
    · rw [hnumber] at h
      simp only at h
      have hrest : rest = [] := by
        rw [← List.length_eq_zero_iff]
        omega
      subst hrest
      rw [← hspace, ← scanSign_fst_append_snd (s.dropWhile isSpace)]
      apply IsNumeral.mk
      · intro c hc
        apply List.mem_takeWhile_imp hc
      · apply isSign_scanSign
      · apply isNumber_of_scanNumber hnumber
  · rintro ⟨hspace, hsign, hnumber⟩
    rename_i space sign number
    obtain ⟨c, rest, rfl, hc, hplus, hminus⟩ := hnumber.head
    obtain ⟨value, hvalue⟩ := hnumber.scanNumber_eq F
    have hscan : scanSign (sign ++ c :: rest) = (sign, c :: rest) := by
      apply scanSign_append_of_isSign hsign
      rintro _ ⟨⟩
      exact ⟨hplus, hminus⟩
    obtain ⟨-, hdrop⟩ := span_append hspace (sign ++ c :: rest) (by
      rcases hsign with rfl | rfl | rfl
      · rintro _ ⟨⟩
        apply hc
      · rintro _ ⟨⟩
        decide
      · rintro _ ⟨⟩
        decide)
    rw [strtof, hdrop, hscan]
    simp only [hvalue]
    simp only [List.length_append, List.length_cons, List.length_nil]
    omega

/-! ### Null characters -/

/-- A numeral has no null character. -/
theorem IsNumeral.not_mem {s : Text} (h : IsNumeral s) :
  '\x00' ∉ s
  := by
  have hword : ∀ (w word : Text), word.map Char.toLower = w → '\x00' ∉ w → '\x00' ∉ word := by
    rintro _ word rfl hw hmem
    apply hw
    rw [List.mem_map]
    use '\x00', hmem
    decide
  obtain ⟨hspace, hsign, hnumber⟩ := h
  rw [List.mem_append, List.mem_append, not_or, not_or]
  refine ⟨?_, ?_, ?_⟩
  · intro hmem
    apply absurd (hspace _ hmem) (by decide)
  · rcases hsign with rfl | rfl | rfl <;> decide
  · cases hnumber with
    | decimal hm he =>
        rw [List.mem_append, not_or]
        constructor
        · intro hmem
          apply absurd (hm.mem hmem) (by decide)
        · intro hmem
          apply absurd (he.mem hmem) (by decide)
    | hexadecimal hx hm he =>
        rw [List.mem_cons, List.mem_cons, List.mem_append, not_or, not_or, not_or]
        refine ⟨by decide, ?_, ?_, ?_⟩
        · rcases hx with rfl | rfl <;> decide
        · intro hmem
          apply absurd (hm.mem hmem) (by decide)
        · intro hmem
          apply absurd (he.mem hmem) (by decide)
    | infinity h =>
        rcases h with h | h
        · apply hword _ _ h (by decide)
        · apply hword _ _ h (by decide)
    | nan h => apply hword _ _ h (by decide)
    | described h hall =>
        rw [List.mem_append, List.mem_cons, List.mem_append, not_or, not_or, not_or]
        refine ⟨hword _ _ h (by decide), by decide, ?_, by decide⟩
        intro hmem
        apply absurd (hall _ hmem) (by decide)

/-- A numeral has a digit or a letter. -/
theorem IsNumeral.ne_nil {s : Text} (h : IsNumeral s) :
  s ≠ []
  := by
  rintro rfl
  apply (strtof_whole_iff .float []).mpr h
  left
  rfl
